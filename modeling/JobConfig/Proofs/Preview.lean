import JobConfig.Preview
import JobConfig.Proofs.Completion

/-!
# What a preview shows

A preview compares texts where a run compares bytes. It shows all files that a run changes, but for
two kinds: a file without content that is removed, and a file of ill-formed bytes that is written
anew with the text that they read as. It scans on its own, so this takes it that each shard has the
same receiver in its scan and in that of the run.
-/

namespace JobConfig

/-! ### Texts -/

theorem Yaml.endLine_ne_nil (cs : List Char) : Yaml.endLine cs ≠ [] := by
  rw [Yaml.endLine]
  split
  · rename_i h
    rintro rfl
    cases h
  · simp

theorem Yaml.document_ne_empty (v : Value) : Yaml.document v ≠ "" := by
  rw [Yaml.document.eq_def]
  split <;> rw [Ne, String.ofList_eq_empty_iff]
  · simp [Yaml.items]
  · rw [Yaml.entries]
    split <;> simp
  · exact Yaml.endLine_ne_nil _

theorem JobSet.text_ne_empty (s : JobSet) : s.text ≠ "" :=
  Yaml.document_ne_empty s.toValue

namespace FileTree

variable {t t' : FileTree} {jobDir : Path} {org repo : String} {generated : JobSet} {f : Planned}
  {scan scan' : Scanner} {disk : Storage}

/-! ### Previews -/

/-- A preview of files that can all be read. -/
theorem preview_eq {diff? : Planned → Option FileDiff}
    (h : ∀ f ∈ t.plan jobDir org repo generated scan, t.diffOf? jobDir f = .ok (diff? f)) :
    t.preview jobDir org repo generated scan =
      .ok ((t.plan jobDir org repo generated scan).filterMap diff?) := by
  have hall : (t.plan jobDir org repo generated scan).mapM (t.diffOf? jobDir) =
      .ok ((t.plan jobDir org repo generated scan).map diff?) := by
    generalize t.plan jobDir org repo generated scan = fs at h
    induction fs with
    | nil => rfl
    | cons f fs ih =>
      rw [List.mapM_cons, h f List.mem_cons_self, ih fun g hg => h g (List.mem_cons_of_mem _ hg)]
      rfl
  rw [preview, hall]
  simp [bind, Except.bind, pure, Except.pure, List.filterMap_map]

/-- Whether a change of what stands at a path is hidden from a preview. -/
def Hidden : Option Entry → Option Entry → Prop
  | some (.file c), none => c = []
  | some (.file c), some (.file c') =>
    Utf8.decode? c = none ∧ c' = Utf8.encode (Utf8.decodeLossy c)
  | _, _ => False

instance (before after : Option Entry) : Decidable (Hidden before after) := by
  unfold Hidden
  split <;> infer_instance

/-- The text of jobs, or no text if there are none. -/
def textOfJobs (jobs : JobSet) : String :=
  if jobs.isEmpty then "" else jobs.text

theorem text_eq (htext : f.jobs.isEmpty = false → f.jobs.render = .ok f.jobs.text) :
    f.text = .ok (textOfJobs f.jobs) := by
  rw [Planned.text, textOfJobs]
  cases he : f.jobs.isEmpty with
  | true => rfl
  | false => exact htext he

/-- The text that was there is that of jobs where nothing changes, or the change is hidden. -/
theorem decodeLossy_eq_textOfJobs_iff (c? : Option Bytes) (jobs : JobSet) :
    Utf8.decodeLossy (c?.getD []) = textOfJobs jobs ↔
      c?.map .file = entryOfJobs? jobs ∨ Hidden (c?.map .file) (entryOfJobs? jobs) := by
  rw [textOfJobs]
  cases he : jobs.isEmpty with
  | true =>
    rw [if_pos rfl, entryOfJobs?_of_isEmpty he, Utf8.decodeLossy_eq_empty]
    cases c? <;> simp [Hidden]
  | false =>
    rw [if_neg (by simp), entryOfJobs?_eq_some he]
    cases c? with
    | none =>
      have htext : Utf8.decodeLossy [] ≠ jobs.text := jobs.text_ne_empty.symm
      simpa [Hidden] using htext
    | some c =>
      simp only [Option.getD_some, Option.map_some, Option.some.injEq, Entry.file.injEq, Hidden,
        Utf8.encode_inj]
      constructor
      · intro h
        by_cases hc : c = Utf8.encode jobs.text
        · exact .inl hc
        · exact .inr ⟨(Utf8.decode?_eq_none_iff h).2 hc, h.symm⟩
      · rintro (rfl | ⟨-, h⟩)
        · exact Utf8.decodeLossy_encode _
        · exact h.symm

theorem diffOf?_eq (ht : t.LinkFree) (hs : t.Sees f.path)
    (hd : t.entryAt? f.path ≠ some .directory)
    (htext : f.jobs.isEmpty = false → f.jobs.render = .ok f.jobs.text) : t.diffOf? jobDir f =
      .ok (if t.outcome f = .unchanged ∨ Hidden (t.entryAt? f.path) (entryOfJobs? f.jobs) then none
        else
          let name := ((f.path.stripPrefix? jobDir).getD f.path).display
          some ⟨f.path, Diff.unified ("a/" ++ name) ("b/" ++ name)
            (Utf8.decodeLossy ((t.fileAt? f.path.place).getD [])) (textOfJobs f.jobs)⟩) := by
  rw [hs.entryAt?] at hd
  have hentry : t.entryAt? f.path = (t.fileAt? f.path.place).map .file := by
    rw [hs.entryAt?, fileAt?]
    cases hg : t.get? f.path.place with
    | none => rfl
    | some e =>
      cases e with
      | file c => rfl
      | directory => exact absurd hg hd
      | link target => exact absurd hg (ht _ target)
  have hlossy := decodeLossy_eq_textOfJobs_iff (t.fileAt? f.path.place) f.jobs
  rw [← hentry] at hlossy
  have hsame : t.outcome f = .unchanged ∨ Hidden (t.entryAt? f.path) (entryOfJobs? f.jobs) ↔
      Utf8.decodeLossy ((t.fileAt? f.path.place).getD []) = textOfJobs f.jobs := by
    rw [hlossy, outcome, outcomeOf_eq_unchanged]
  rw [diffOf?, text_eq htext, textOf, hs.contentOf? ht hd]
  simp only [hsame, Except.map, bind, Except.bind, pure, Except.pure]
  split <;> rfl

/-- Where a run ends well, a preview in which each shard has the receiver that it has in the run
shows the files that it changes, but for the changes that are hidden. -/
theorem preview_shows (ht : t.LinkFree) (h : IsTarget jobDir org repo)
    {os : List (Outcome × Path)}
    (hsame : SameReceivers (generated.shards org repo) (repoDir jobDir org repo)
      (t.found (repoDir jobDir org repo) scan) (t.found (repoDir jobDir org repo) scan'))
    (hrun : t.shardInto jobDir org repo generated false scan disk = (.ok os, t')) :
    ∃ diffs, t.preview jobDir org repo generated scan' = .ok diffs ∧
      ∀ p, (∃ d ∈ diffs, d.path = p) ↔
        ∃ o, (o, p) ∈ os ∧ o ≠ .unchanged ∧ ¬Hidden (t.entryAt? p) (t'.entryAt? p) := by
  obtain ⟨rfl, hfiles⟩ := shardInto_ok_outcomes h ht hrun
  have hplan := plan_eq_of_sameReceivers (found_perm_found t _ scan scan') hsame
  rw [← hplan] at hfiles ⊢
  refine ⟨_, preview_eq fun f hf =>
    diffOf?_eq ht (hfiles f hf).1 (hfiles f hf).2.1 (hfiles f hf).2.2.2, fun p => ?_⟩
  simp only [List.mem_filterMap, List.mem_map, Option.ite_none_left_eq_some, not_or]
  constructor
  · rintro ⟨d, ⟨f, hf, ⟨ho, hh⟩, hd⟩, rfl⟩
    cases hd
    exact ⟨_, ⟨f, hf, rfl⟩, ho, (hfiles f hf).2.2.1 ▸ hh⟩
  · rintro ⟨o, ⟨f, hf, hfo⟩, ho, hh⟩
    cases hfo
    exact ⟨_, ⟨f, hf, ⟨ho, (hfiles f hf).2.2.1 ▸ hh⟩, rfl⟩, rfl⟩

/-! ### A change that is shown and two that are hidden -/

set_option maxRecDepth 100000 in
/-- A preview of the small run shows the new file, also if it scans in the other order. -/
theorem preview_shows_handTree : ∃ diffs,
    handTree.preview smallDir "o" "r" (smallJobs Job.newlyGenerated) .reversed = .ok diffs ∧
      ∃ d ∈ diffs, d.path = smallPath "o-r-master-presubmits.yaml" := by
  have hsame := oneTaker_handTree.sameReceivers (found_perm_found handTree _ .inOrder .reversed)
    (repoDir smallDir "o" "r")
  obtain ⟨diffs, hdiffs, hshown⟩ :=
    preview_shows linkFree_handTree isTarget_small hsame shardInto_handTree
  refine ⟨diffs, hdiffs, (hshown _).2 ⟨.written, List.mem_cons_self, by decide, ?_⟩⟩
  decide +kernel

/-- A tree with one file of any bytes. -/
def bytesTree (c : Bytes) : FileTree :=
  (smallTree []).put (smallPath "o-r-master-presubmits.yaml").place (.file c)

/-- One generated job whose name is the replacement character. -/
def replacedJobs : JobSet where
  presubmits := .ofList [("o/r", [{ name := "\uFFFD" }])]

/-- The text of that job with an ill-formed name. -/
def illFormed : Bytes :=
  Utf8.encode "presubmits:\n  o/r:\n  - name: " ++ [0xff, 0x0a]

set_option maxRecDepth 100000 in
/-- A preview shows nothing where a file without content is removed, and where ill-formed bytes are
replaced by the text that they read as. -/
theorem preview_hides :
    ((bytesTree []).LinkFree ∧
      (bytesTree []).preview smallDir "o" "r" (smallJobs Job.generated) = .ok [] ∧
      ((bytesTree []).shardInto smallDir "o" "r" (smallJobs Job.generated) false).1 =
        .ok [(.deleted, smallPath "o-r-master-presubmits.yaml")]) ∧
    ((bytesTree illFormed).LinkFree ∧
      (bytesTree illFormed).preview smallDir "o" "r" replacedJobs = .ok [] ∧
      ((bytesTree illFormed).shardInto smallDir "o" "r" replacedJobs false).1 =
        .ok [(.written, smallPath "o-r-master-presubmits.yaml")]) := by
  refine ⟨⟨by decide +kernel, ?_, ?_⟩, by decide +kernel, ?_, ?_⟩ <;>
    exact toOption_eq_some_iff.1 (by decide +kernel)

end FileTree

end JobConfig
