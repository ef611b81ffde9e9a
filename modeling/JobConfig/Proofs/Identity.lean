import JobConfig.Proofs.Lists
import JobConfig.Proofs.Path
import JobConfig.Scan

/-!
# File names are read back

The name built for an organisation, a repository, a branch and a kind is the name of a file, and in
the directory of the repository it is read back as just these.
-/

namespace JobConfig

theorem dropStart?_append (start cs : List Char) : dropStart? start (start ++ cs) = some cs := by
  induction start with
  | nil => rfl
  | cons s start ih => rw [List.cons_append, dropStart?, if_pos rfl, ih]

theorem cutAtLastDash?_of_not_mem {cs : List Char} (h : '-' ∉ cs) : cutAtLastDash? cs = none := by
  induction cs with
  | nil => rfl
  | cons c cs ih =>
    simp only [List.mem_cons, not_or] at h
    rw [cutAtLastDash?, ih h.2]
    exact if_neg (Ne.symm h.1)

theorem cutAtLastDash?_append {after : List Char} (h : '-' ∉ after) (before : List Char) :
    cutAtLastDash? (before ++ '-' :: after) = some (before, after) := by
  induction before with
  | nil =>
    rw [List.nil_append, cutAtLastDash?, cutAtLastDash?_of_not_mem h]
    rfl
  | cons c before ih => rw [List.cons_append, cutAtLastDash?, ih]

/-- A name is cut at a point behind which there is no other. -/
theorem Path.cutName_append {before after : Bytes} (hb : before ≠ []) (ha : Path.dot ∉ after) :
    Path.cutName (before ++ Path.dot :: after) = (before, some after) := by
  have hne : ∀ b ∈ after.reverse, (b != Path.dot) = true := fun b hm => by
    simp only [List.mem_reverse] at hm
    simpa using fun e : b = Path.dot => ha (e ▸ hm)
  have hr : (before ++ Path.dot :: after).reverse =
      after.reverse ++ Path.dot :: before.reverse := by
    simp
  have htake : (after.reverse ++ Path.dot :: before.reverse).takeWhile (· != Path.dot) =
      after.reverse := by
    rw [List.takeWhile_append_of_pos hne]
    simp
  have hdrop : (after.reverse ++ Path.dot :: before.reverse).dropWhile (· != Path.dot) =
      Path.dot :: before.reverse := by
    rw [List.dropWhile_append_of_pos hne]
    simp
  simp only [Path.cutName, hr, htake, hdrop, List.reverse_reverse, List.tail_cons, if_neg hb]

/-! ### Names of job files -/

/-- The part of a file's name before its extension. -/
def fileStem (org repo branch : String) (kind : Kind) : String :=
  if kind = .periodic ∧ branch = "" then nameStart org repo ++ kind.token
  else nameStart org repo ++ (branch ++ "-" ++ kind.token)

theorem fileName_eq (org repo branch : String) (kind : Kind) :
    fileName org repo branch kind = fileStem org repo branch kind ++ ".yaml" := by
  unfold fileName fileStem
  split <;> simp [String.append_assoc]

theorem encode_fileName (org repo branch : String) (kind : Kind) :
    Utf8.encode (fileName org repo branch kind) =
      Utf8.encode (fileStem org repo branch kind) ++ Path.dot :: jobExtension := by
  rw [fileName_eq, Utf8.encode_append]
  rfl

theorem dash_mem_fileStem (org repo branch : String) (kind : Kind) :
    '-' ∈ (fileStem org repo branch kind).toList := by
  unfold fileStem nameStart
  split <;> simp

theorem fileStem_ne_nil (org repo branch : String) (kind : Kind) :
    Utf8.encode (fileStem org repo branch kind) ≠ [] := by
  intro h
  have := dash_mem_fileStem org repo branch kind
  rw [(Utf8.encode_inj (t := "")).1 h] at this
  simp at this

/-- A stem starts with the organisation and the repository. -/
theorem toList_fileStem (org repo branch : String) (kind : Kind) :
    (fileStem org repo branch kind).toList = (nameStart org repo).toList ++
      (if kind = .periodic ∧ branch = "" then kind.token.toList
        else branch.toList ++ '-' :: kind.token.toList) := by
  unfold fileStem
  split <;> simp

theorem slash_not_mem_token (kind : Kind) : '/' ∉ kind.token.toList := by
  cases kind <;> decide

theorem dash_not_mem_token (kind : Kind) : '-' ∉ kind.token.toList := by
  cases kind <;> decide

/-- The name of a job file is one name, if organisation, repository and branch have no slash. -/
theorem isPlain_fileName {org repo branch : String} (ho : '/' ∉ org.toList)
    (hr : '/' ∉ repo.toList) (hb : '/' ∉ branch.toList) (kind : Kind) :
    Path.IsPlain (fileName org repo branch kind) := by
  have hd := dash_mem_fileStem org repo branch kind
  have hk := slash_not_mem_token kind
  rw [fileName_eq]
  refine ⟨?_, ?_, ?_, ?_⟩
  · intro h
    have := congrArg String.toList h
    simp at this
  · have hs : '/' ∉ (fileStem org repo branch kind).toList := by
      unfold fileStem nameStart
      split <;> simp [ho, hr, hb, hk]
    simpa using hs
  all_goals
    intro h
    have := congrArg (fun s : String => decide ('-' ∈ s.toList)) h
    simp [hd] at this

namespace Identity

theorem ofJobFile?_eq_some_iff {p : Path} {i : Identity} : ofJobFile? p = some i ↔
    p.extension? = some jobExtension ∧ ofPath p = .ok i := by
  rw [ofJobFile?, ← toOption_eq_some_iff]
  split <;> simp [*]

theorem dirName?_join {name : String} (h : Path.IsPlain name) (p : Path) :
    dirName? (p.join (.ofString name)) = some name := by
  rw [dirName?, Path.ofString, Path.fileName?_join (Path.isName_encode.2 h), Option.map_some,
    Utf8.decodeLossy_encode]

/-- What the stem of a file's name says, behind organisation and repository. -/
theorem branchAndKind_fileStem (stem branch : String) (kind : Kind) :
    branchAndKind stem
      (if kind = .periodic ∧ branch = "" then kind.token.toList
        else branch.toList ++ '-' :: kind.token.toList) = .ok (branch, kind) := by
  by_cases h : kind = .periodic ∧ branch = ""
  · obtain ⟨rfl, rfl⟩ := h
    rw [if_pos ⟨rfl, rfl⟩, branchAndKind, cutAtLastDash?_of_not_mem (dash_not_mem_token _)]
    simp
  · rw [if_neg h, branchAndKind, cutAtLastDash?_append (dash_not_mem_token kind)]
    simp [Kind.ofToken?_token]

/-- The file of a branch and a kind in the directory of its repository is a job file of just
these. -/
theorem ofJobFile?_fileName {org repo branch : String} (ho : Path.IsPlain org)
    (hr : Path.IsPlain repo) (hb : '/' ∉ branch.toList) (kind : Kind) (jobDir : Path) :
    let p := ((jobDir.join (.ofString org)).join (.ofString repo)).join
      (.ofString (fileName org repo branch kind))
    ofJobFile? p = some { org, repo, branch, kind, file := p } := by
  intro p
  have hon : Path.isName (Path.ofString org).bytes = true := Path.isName_encode.2 ho
  have hrn : Path.isName (Path.ofString repo).bytes = true := Path.isName_encode.2 hr
  have hfn : Path.isName (Path.ofString (fileName org repo branch kind)).bytes = true :=
    Path.isName_encode.2 (isPlain_fileName ho.2.1 hr.2.1 hb kind)
  have hf : p.fileName? = some (Utf8.encode (fileName org repo branch kind)) :=
    Path.fileName?_join hfn _
  have hcut : Path.cutName (Utf8.encode (fileName org repo branch kind)) =
      (Utf8.encode (fileStem org repo branch kind), some jobExtension) := by
    rw [encode_fileName]
    exact Path.cutName_append (fileStem_ne_nil org repo branch kind) (by decide)
  have hext : p.extension? = some jobExtension := by
    rw [Path.extension?, hf, Option.bind_some, hcut]
  have hstem : p.stem? = some (Utf8.encode (fileStem org repo branch kind)) := by
    rw [Path.stem?, hf, Option.map_some, hcut]
  have hp : p.parent? = some ((jobDir.join (.ofString org)).join (.ofString repo)) :=
    Path.parent?_join hfn (Path.endsInName_join hrn _)
  have hpp : ((jobDir.join (.ofString org)).join (.ofString repo)).parent? =
      some (jobDir.join (.ofString org)) :=
    Path.parent?_join hrn (Path.endsInName_join hon _)
  have hok : ofPath p = .ok { org, repo, branch, kind, file := p } := by
    simp only [ofPath, hp, hpp, hstem, Option.getD_some, Option.map_some, dirName?_join ho,
      dirName?_join hr, Utf8.decodeLossy_encode, toList_fileStem, dropStart?_append,
      branchAndKind_fileStem]
    rfl
  rw [ofJobFile?, if_pos hext, hok]
  rfl

end Identity

/-- A file name says what it was built from. -/
theorem fileName_inj {org repo branch branch' : String} {kind kind' : Kind} :
    fileName org repo branch kind = fileName org repo branch' kind' ↔
      branch = branch' ∧ kind = kind' := by
  constructor
  · intro h
    -- what the end of the stem is read as
    have hread := Identity.branchAndKind_fileStem "" branch kind
    rw [fileName_eq, fileName_eq, String.append_left_inj, ← String.toList_inj, toList_fileStem,
      toList_fileStem, List.append_cancel_left_eq] at h
    rw [h, Identity.branchAndKind_fileStem] at hread
    simpa [eq_comm] using hread
  · rintro ⟨rfl, rfl⟩
    rfl

end JobConfig
