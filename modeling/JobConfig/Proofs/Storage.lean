import JobConfig.Proofs.Tree.Storage
import JobConfig.Write

/-!
# Writing on storage that refuses changes

What succeeds on some storage succeeds on sound storage as well, and leaves the same there.
-/

namespace JobConfig

/-- Whether the storage has failed. -/
def Failure.IsFault (e : Failure) : Prop :=
  ∃ p fault, e = .refused p (.storage fault)

namespace FileTree

variable {t t' : FileTree} {p : Path} {c : Bytes} {jobs : JobSet} {dryRun : Bool} {disk : Storage}

theorem makeDirectories_sound (h : t.makeDirectories p disk = (.ok (), t')) :
    t.makeDirectories p = (.ok (), t') := by
  rcases t.makeDirectories_or_fault disk p with hs | ⟨fault, hf⟩
  · rw [← hs, h]
  · rw [h] at hf
    cases hf

theorem makeParent_sound (h : t.makeParent p disk = (.ok (), t')) :
    t.makeParent p = (.ok (), t') := by
  rw [makeParent] at h ⊢
  split at h
  · exact h
  · rename_i dir _
    cases hm : t.makeDirectories dir disk with
    | mk r t₁ =>
      rw [hm] at h
      cases r with
      | error e => cases h
      | ok =>
        cases h
        rw [makeDirectories_sound hm]
        rfl

theorem replaceFile_sound (h : t.replaceFile p c disk = (.ok (), t')) :
    t.replaceFile p c = (.ok (), t') := by
  rw [replaceFile] at h
  split at h
  · cases h
  · rename_i t₁ h₁
    rcases disk.writeFile_cases t₁ (besides p) c with
      ⟨t₂, hw, hs⟩ | ⟨r, -, hs⟩ | ⟨fault, hs | ⟨n, t₂, -, hs⟩⟩
    · rw [hs] at h
      simp only at h
      split at h
      · rename_i t₃ h₃
        cases h
        simp only [replaceFile, makeParent_sound h₁, Storage.writeFile_sound, hw,
          Storage.rename_sound, Storage.of_grant h₃]
      · cases h
    all_goals
      rw [hs] at h
      cases h

theorem removeJobs_sound {o : Outcome} (h : t.removeJobs p dryRun disk = (.ok o, t')) :
    t.removeJobs p dryRun = (.ok o, t') := by
  rw [removeJobs] at h ⊢
  rw [Storage.removeFile_sound]
  rcases disk.grant_cases t (.removeFile p) (t.removeFile p) with hr | ⟨fault, hr⟩
  · rwa [Storage.removeFile, hr] at h
  · -- a fault is a failure unless the file is not removed
    rw [Storage.removeFile, hr] at h
    split at h
    · rw [if_pos ‹_›, h]
    · split at h
      · rw [if_neg ‹_›, if_pos ‹_›, h]
      · cases h

theorem writeJobs_sound {o : Outcome} (h : t.writeJobs p jobs dryRun disk = (.ok o, t')) :
    t.writeJobs p jobs dryRun = (.ok o, t') := by
  rw [writeJobs] at h
  split at h
  · rw [writeJobs, if_pos ‹_›, removeJobs_sound h]
  · split at h
    · cases h
    · cases h
    · rename_i text old? htext hold
      rw [writeJobs, if_neg ‹_›, htext, hold]
      simp only
      split at h
      · rw [if_pos ‹_›, h]
      · split at h
        · rw [if_neg ‹_›, if_pos ‹_›, h]
        · split at h
          · rename_i t₁ h₁
            rw [if_neg ‹_›, if_neg ‹_›, replaceFile_sound h₁]
            exact h
          · cases h

theorem writeAll_sound {fs : List Planned} {os : List (Outcome × Path)}
    (h : writeAll dryRun t fs disk = (.ok os, t')) : writeAll dryRun t fs = (.ok os, t') := by
  induction fs generalizing t os with
  | nil => exact h
  | cons f fs ih =>
    rw [writeAll] at h
    split at h
    · cases h
    · rename_i o t₁ h₁
      split at h
      · cases h
      · rename_i os₁ t₂ h₂
        cases h
        rw [writeAll, writeJobs_sound h₁]
        simp only [ih h₂]

/-- A run that succeeds on some storage succeeds on sound storage with the same outcomes, and leaves
the same. -/
theorem shardInto_sound {jobDir : Path} {org repo : String} {generated : JobSet} {scan : Scanner}
    {os : List (Outcome × Path)}
    (h : t.shardInto jobDir org repo generated dryRun scan disk = (.ok os, t')) :
    t.shardInto jobDir org repo generated dryRun scan = (.ok os, t') := by
  simp only [shardInto] at h ⊢
  cases dryRun with
  | true => exact writeAll_sound h
  | false =>
    simp only [Bool.false_eq_true, if_false] at h ⊢
    cases hm : t.makeDirectories (repoDir jobDir org repo) disk with
    | mk r t₁ =>
      rw [hm] at h
      cases r with
      | error e => cases h
      | ok =>
        rw [makeDirectories_sound hm]
        exact writeAll_sound h

end FileTree

end JobConfig
