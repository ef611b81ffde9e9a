import JobConfig.Tree.Operations

/-!
# Storage that refuses changes

Whatever the storage under a tree is like, an operation does what it does on storage that refuses
nothing, or it fails with a fault of the storage.
-/

namespace JobConfig

namespace Storage

variable {t t' : FileTree}

@[simp] theorem grant_sound (t : FileTree) (change : Change) (r : Except Refusal FileTree) :
    sound.grant t change r = r := by
  cases r <;> rfl

theorem grant_cases (disk : Storage) (t : FileTree) (change : Change)
    (r : Except Refusal FileTree) : disk.grant t change r = r ∨
      ∃ fault, disk.grant t change r = .error (.storage fault) := by
  unfold grant
  split
  · exact .inr ⟨_, rfl⟩
  · exact .inl rfl

/-- What the storage grants, the tree admits. -/
theorem of_grant {disk : Storage} {change : Change} {r : Except Refusal FileTree}
    (h : disk.grant t change r = .ok t') : r = .ok t' := by
  rcases grant_cases disk t change r with hr | ⟨fault, hr⟩
  · rw [← hr, h]
  · rw [hr] at h
    cases h

@[simp] theorem removeFile_sound (t : FileTree) (p : Path) :
    sound.removeFile t p = t.removeFile p :=
  grant_sound _ _ _

@[simp] theorem rename_sound (t : FileTree) (p q : Path) : sound.rename t p q = t.rename p q :=
  grant_sound _ _ _

@[simp] theorem makeDirectory_sound (t : FileTree) (p : Path) :
    sound.makeDirectory t p = t.makeDirectory p :=
  grant_sound _ _ _

/-- What writing a file leaves: the file, the tree as it was, or a fault and the beginning of the
file. -/
theorem writeFile_cases (disk : Storage) (t : FileTree) (p : Path) (content : Bytes) :
    (∃ t', t.writeFile p content = .ok t' ∧ disk.writeFile t p content = (.ok (), t')) ∨
    (∃ r, t.writeFile p content = .error r ∧ disk.writeFile t p content = (.error r, t)) ∨
    ∃ fault, disk.writeFile t p content = (.error (.storage fault), t) ∨
      ∃ n t', t.writeFile p (content.take n) = .ok t' ∧
        disk.writeFile t p content = (.error (.storage fault), t') := by
  rw [writeFile]
  split
  · exact .inr (.inl ⟨_, ‹_›, rfl⟩)
  · exact .inl ⟨_, ‹_›, rfl⟩
  · rename_i t' fault h _
    refine .inr (.inr ⟨fault, ?_⟩)
    split
    · exact .inl rfl
    · rename_i n _
      cases hn : t.writeFile p (content.take n) with
      | error r => exact .inl rfl
      | ok t'' => exact .inr ⟨n, t'', hn, rfl⟩

@[simp] theorem writeFile_sound (t : FileTree) (p : Path) (content : Bytes) :
    sound.writeFile t p content =
      match t.writeFile p content with
      | .ok t' => (.ok (), t')
      | .error r => (.error r, t) := by
  rw [writeFile]
  cases t.writeFile p content <;> rfl

end Storage

namespace FileTree

variable (t : FileTree) (disk : Storage)

theorem ensureDirectory_or_fault (p : Path) : t.ensureDirectory p disk = t.ensureDirectory p ∨
    ∃ fault, t.ensureDirectory p disk = .error (.storage fault) := by
  rw [ensureDirectory, ensureDirectory, Storage.makeDirectory_sound]
  rcases disk.grant_cases t (.makeDirectory p) (t.makeDirectory p) with h | ⟨fault, h⟩
  · rw [Storage.makeDirectory, h]
    exact .inl rfl
  · rw [Storage.makeDirectory, h]
    exact .inr ⟨fault, rfl⟩

theorem ensureAll_or_fault (ps : List Path) : t.ensureAll ps disk = t.ensureAll ps ∨
    ∃ fault, (t.ensureAll ps disk).1 = .error (.storage fault) := by
  induction ps generalizing t with
  | nil => exact .inl rfl
  | cons p ps ih =>
    rw [ensureAll, ensureAll]
    rcases t.ensureDirectory_or_fault disk p with h | ⟨fault, h⟩
    · rw [h]
      split
      · exact .inl rfl
      · rcases ih t with hps | ⟨fault, hps⟩
        · rw [hps]
          split
          · exact .inl rfl
          · rename_i t₁ _
            rcases t₁.ensureDirectory_or_fault disk p with h | ⟨fault, h⟩
            · rw [h]
              exact .inl rfl
            · rw [h]
              exact .inr ⟨fault, rfl⟩
        · refine .inr ⟨fault, ?_⟩
          split
          · rename_i h'
            rw [h'] at hps
            exact hps
          · rename_i h'
            rw [h'] at hps
            cases hps
      · exact .inl rfl
    · rw [h]
      exact .inr ⟨fault, rfl⟩

/-- Directories are made as on sound storage, unless the storage fails. -/
theorem makeDirectories_or_fault (p : Path) : t.makeDirectories p disk = t.makeDirectories p ∨
    ∃ fault, (t.makeDirectories p disk).1 = .error (.storage fault) :=
  t.ensureAll_or_fault disk _

end FileTree

end JobConfig
