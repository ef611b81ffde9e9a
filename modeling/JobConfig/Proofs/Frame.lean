import JobConfig.Proofs.Write

/-!
# What writing leaves alone

In any tree, with links or without, and on any storage, writing files changes nothing at a location
to which neither their paths nor the paths beside them lead, whether it ends well or not. The paths
themselves must not lead to links: what a link that is moved or replaced leads to is another matter.
-/

namespace JobConfig.FileTree

variable {t t' t'' : FileTree} {p q : Path} {l k : Location} {c : Bytes}

/-! ### Keeping a location -/

/-- Whether a path leads to no link and not to a location. -/
def Spares (t : FileTree) (p : Path) (l : Location) : Prop :=
  ∀ follow k, t.leads follow p = some k → k ≠ l ∧ t.linkAt? k = none

/-- Whether two trees have the same links, and the same file at a location. -/
structure Keeps (t t' : FileTree) (l : Location) : Prop where
  links : t'.linkAt? = t.linkAt?
  file : t'.fileAt? l = t.fileAt? l

theorem Keeps.refl (t : FileTree) (l : Location) : t.Keeps t l := ⟨rfl, rfl⟩

theorem Keeps.trans (h : t.Keeps t' l) (h' : t'.Keeps t'' l) : t.Keeps t'' l :=
  ⟨h'.links.trans h.links, h'.file.trans h.file⟩

theorem Keeps.spares (h : t.Keeps t' l) (hp : t.Spares p l) : t'.Spares p l := by
  intro follow k hk
  rw [h.links]
  rw [leads, h.links] at hk
  exact hp follow k hk

theorem Extends.keeps_file (h : t'.Extends t) (l : Location) : t.Keeps t' l :=
  ⟨h.linkAt?, h.fileAt? l⟩

theorem keeps_put {e : Entry} (hk : k ≠ l) (hlink : t.linkAt? k = none)
    (he : ∀ target, e ≠ .link target) : t.Keeps (t.put k e) l := by
  by_cases ha : t.Admits k
  · constructor
    · funext j
      by_cases hj : j = k
      · subst hj
        rw [hlink, linkAt?, get?_put ha, if_pos rfl]
        cases e with
        | link target => exact absurd rfl (he target)
        | file c => rfl
        | directory => rfl
      · rw [linkAt?, get?_put ha, if_neg hj, linkAt?]
    · rw [fileAt?, get?_put ha, if_neg (Ne.symm hk), fileAt?]
  · rw [put, dif_neg ha]
    exact .refl t l

theorem keeps_remove (hk : k ≠ l) (hlink : t.linkAt? k = none) : t.Keeps (t.remove k) l := by
  constructor
  · funext j
    by_cases hj : j = k
    · subst hj
      rcases get?_remove_self t j with h | h
      · rw [linkAt?, h, linkAt?]
      · rw [hlink, linkAt?, h]
    · rw [linkAt?, get?_remove_of_ne hj, linkAt?]
  · rw [fileAt?, get?_remove_of_ne (Ne.symm hk), fileAt?]

/-! ### Operations -/

theorem writeFile_keeps (hp : t.Spares p l) (h : t.writeFile p c = .ok t') : t.Keeps t' l := by
  obtain ⟨k, hk, -, rfl⟩ := writeFile_leads h
  obtain ⟨hne, hlink⟩ := hp _ _ hk
  exact keeps_put hne hlink (by simp)

theorem removeFile_keeps (hp : t.Spares p l) (h : t.removeFile p = .ok t') : t.Keeps t' l := by
  obtain ⟨k, hk, -, rfl⟩ := removeFile_leads h
  obtain ⟨hne, hlink⟩ := hp _ _ hk
  exact keeps_remove hne hlink

theorem rename_keeps (hp : t.Spares p l) (hq : t.Spares q l) (h : t.rename p q = .ok t') :
    t.Keeps t' l := by
  obtain ⟨j, e, k, hj, he, hk, -, rfl⟩ := rename_leads h
  obtain ⟨hjne, hjlink⟩ := hp _ _ hj
  obtain ⟨hkne, hklink⟩ := hq _ _ hk
  have hremove := keeps_remove hjne hjlink
  refine hremove.trans (keeps_put hkne (by rw [hremove.links, hklink]) ?_)
  rintro target rfl
  rw [linkAt?_eq_some_iff.2 he] at hjlink
  cases hjlink

/-- Writing a file keeps what its path spares, also where the storage refuses the content. -/
theorem keeps_of_writeFile (disk : Storage) (hp : t.Spares p l) (c : Bytes) :
    t.Keeps (disk.writeFile t p c).2 l := by
  rcases disk.writeFile_cases t p c with ⟨t', h, heq⟩ | ⟨r, -, heq⟩ | ⟨fault, heq | ⟨n, t', h, heq⟩⟩
  · rw [heq]
    exact writeFile_keeps hp h
  · rw [heq]
    exact .refl t l
  · rw [heq]
    exact .refl t l
  · rw [heq]
    exact writeFile_keeps hp h

/-! ### Files -/

variable (disk : Storage)

theorem replaceFile_keeps (hp : t.Spares p l) (hb : t.Spares (besides p) l) (c : Bytes) :
    t.Keeps (t.replaceFile p c disk).2 l := by
  have hparent := (makeParent_extends t p disk).keeps_file l
  rw [replaceFile]
  split
  · rename_i t₁ h₁
    rw [h₁] at hparent
    exact hparent
  · rename_i t₁ h₁
    rw [h₁] at hparent
    have hwrite := hparent.trans (keeps_of_writeFile disk (hparent.spares hb) c)
    split
    · rename_i t₂ h₂
      rw [h₂] at hwrite
      exact hwrite
    · rename_i t₂ h₂
      rw [h₂] at hwrite
      split
      · rename_i t₃ h₃
        exact hwrite.trans
          (rename_keeps (hwrite.spares hb) (hwrite.spares hp) (Storage.of_grant h₃))
      · -- also where the renaming fails and the file beside is removed
        cases h₃ : disk.removeFile t₂ (besides p) with
        | error r => exact hwrite
        | ok t₃ => exact hwrite.trans (removeFile_keeps (hwrite.spares hb) (Storage.of_grant h₃))

theorem removeJobs_keeps (hp : t.Spares p l) (dryRun : Bool) :
    t.Keeps (t.removeJobs p dryRun disk).2 l := by
  rw [removeJobs]
  split
  · exact .refl t l
  · split
    · exact .refl t l
    · split
      · rename_i h
        exact removeFile_keeps hp (Storage.of_grant h)
      · exact .refl t l
      · exact .refl t l

theorem writeJobs_keeps (hp : t.Spares p l) (hb : t.Spares (besides p) l) (jobs : JobSet)
    (dryRun : Bool) : t.Keeps (t.writeJobs p jobs dryRun disk).2 l := by
  rw [writeJobs]
  split
  · exact removeJobs_keeps disk hp dryRun
  · split
    · exact .refl t l
    · exact .refl t l
    · rename_i text _ _ _
      have hreplace := replaceFile_keeps disk hp hb (Utf8.encode text)
      split
      · exact .refl t l
      · split
        · exact .refl t l
        · split
          · rename_i h
            rw [h] at hreplace
            exact hreplace
          · rename_i h
            rw [h] at hreplace
            exact hreplace

/-- Writing files keeps a location that the paths of all of them spare. -/
theorem writeAll_keeps {fs : List Planned} (dryRun : Bool)
    (h : ∀ f ∈ fs, t.Spares f.path l ∧ t.Spares (besides f.path) l) :
    t.Keeps (writeAll dryRun t fs disk).2 l := by
  induction fs generalizing t with
  | nil => exact .refl t l
  | cons f fs ih =>
    obtain ⟨hp, hb⟩ := h f List.mem_cons_self
    have hfirst := writeJobs_keeps disk hp hb f.jobs dryRun
    rw [writeAll]
    split
    · rename_i h₁
      rw [h₁] at hfirst
      exact hfirst
    · rename_i o t₁ h₁
      rw [h₁] at hfirst
      have hrest := hfirst.trans (ih fun g hg =>
        (h g (List.mem_cons_of_mem _ hg)).imp hfirst.spares hfirst.spares)
      split
      · rename_i h₂
        rw [h₂] at hrest
        exact hrest
      · rename_i h₂
        rw [h₂] at hrest
        exact hrest

end JobConfig.FileTree
