import JobConfig.Proofs.Identity
import JobConfig.Proofs.Shown

/-!
# File names are built again

What is read from the name of a file says what the name was, with one exception: a dash right before
the kind stands for a branch without a name, and for periodics the name built of that has no place
for a branch at all.
-/

namespace JobConfig

/-! ### Cutting a stem -/

theorem dropStart?_eq_some_iff {start cs rest : List Char} :
    dropStart? start cs = some rest ↔ cs = start ++ rest := by
  constructor
  · intro h
    induction start generalizing cs with
    | nil => exact Option.some.inj h
    | cons s start ih =>
      cases cs with
      | nil => cases h
      | cons c cs =>
        rw [dropStart?, Option.ite_none_right_eq_some] at h
        rw [h.1, ih h.2, List.cons_append]
  · rintro rfl
    exact dropStart?_append start rest

theorem cutAtLastDash?_eq_none_iff {cs : List Char} : cutAtLastDash? cs = none ↔ '-' ∉ cs := by
  refine ⟨fun h hmem => ?_, cutAtLastDash?_of_not_mem⟩
  induction cs with
  | nil => cases hmem
  | cons c cs ih =>
    rw [cutAtLastDash?] at h
    split at h
    · cases h
    · rename_i hcs
      rcases List.mem_cons.1 hmem with rfl | hmem
      · rw [if_pos rfl] at h
        cases h
      · exact ih hcs hmem

theorem cutAtLastDash?_eq_some_iff {cs before after : List Char} :
    cutAtLastDash? cs = some (before, after) ↔ cs = before ++ '-' :: after ∧ '-' ∉ after := by
  constructor
  · intro h
    induction cs generalizing before with
    | nil => cases h
    | cons c cs ih =>
      rw [cutAtLastDash?] at h
      split at h
      · rename_i hcs
        cases h
        obtain ⟨rfl, hno⟩ := ih hcs
        exact ⟨rfl, hno⟩
      · rename_i hcs
        rw [Option.ite_none_right_eq_some] at h
        obtain ⟨rfl, h⟩ := h
        cases h
        exact ⟨rfl, cutAtLastDash?_eq_none_iff.1 hcs⟩
  · rintro ⟨rfl, hno⟩
    exact cutAtLastDash?_append hno before

/-- The branch and the kind in front of and behind the last dash. -/
theorem append_token_inj {as bs : List Char} {kind kind' : Kind} :
    as ++ '-' :: kind.token.toList = bs ++ '-' :: kind'.token.toList ↔ as = bs ∧ kind = kind' := by
  constructor
  · intro h
    have hcut := cutAtLastDash?_append (dash_not_mem_token kind) as
    rw [h, cutAtLastDash?_append (dash_not_mem_token kind')] at hcut
    obtain ⟨rfl, htoken⟩ := Prod.mk.inj (Option.some.inj hcut)
    have hkind := Kind.ofToken?_token kind
    rw [← String.toList_inj.1 htoken, Kind.ofToken?_token] at hkind
    exact ⟨rfl, (Option.some.inj hkind).symm⟩
  · rintro ⟨rfl, rfl⟩
    rfl

/-! ### What a stem says -/

namespace Identity

variable {p : Path} {i : Identity} {stem branch : String} {kind : Kind} {rest : List Char}

/-- Without a dash there is the word for periodics alone. -/
theorem branchAndKind_of_no_dash (h : '-' ∉ rest) : branchAndKind stem rest = .ok (branch, kind) ↔
    branch = "" ∧ kind = .periodic ∧ rest = kind.token.toList := by
  rw [branchAndKind, cutAtLastDash?_eq_none_iff.2 h]
  simp only
  split
  · rename_i hword
    rw [← String.toList_inj, String.toList_ofList] at hword
    constructor
    · intro h
      cases h
      exact ⟨rfl, rfl, hword⟩
    · rintro ⟨rfl, rfl, -⟩
      rfl
  · rename_i hword
    simp only [reduceCtorEq, false_iff]
    rintro ⟨-, rfl, rfl⟩
    exact hword String.ofList_toList

/-- Behind the last dash there is the word for a kind. -/
theorem branchAndKind_of_dash {before after : List Char} (h : '-' ∉ after) :
    branchAndKind stem (before ++ '-' :: after) = .ok (branch, kind) ↔
      before ++ '-' :: after = branch.toList ++ '-' :: kind.token.toList := by
  rw [branchAndKind, cutAtLastDash?_append h]
  simp only
  split
  · rename_i kind' hkind
    have htoken : after = kind'.token.toList := by
      rw [Kind.token_of_ofToken? hkind, String.toList_ofList]
    rw [htoken, append_token_inj, Except.ok.injEq, Prod.mk.injEq, ← String.toList_inj,
      String.toList_ofList]
  · rename_i hkind
    simp only [reduceCtorEq, false_iff]
    intro heq
    have hcut := cutAtLastDash?_append (dash_not_mem_token kind) branch.toList
    rw [← heq, cutAtLastDash?_append h] at hcut
    obtain ⟨-, rfl⟩ := Prod.mk.inj (Option.some.inj hcut)
    rw [String.ofList_toList, Kind.ofToken?_token] at hkind
    cases hkind

/-- Behind organisation and repository there is the word for periodics alone, or a branch, a dash
and the word for a kind. -/
theorem branchAndKind_eq_ok_iff : branchAndKind stem rest = .ok (branch, kind) ↔
    (branch = "" ∧ kind = .periodic ∧ rest = kind.token.toList) ∨
      rest = branch.toList ++ '-' :: kind.token.toList := by
  cases hcut : cutAtLastDash? rest with
  | none =>
    have hno := cutAtLastDash?_eq_none_iff.1 hcut
    have hdash : rest ≠ branch.toList ++ '-' :: kind.token.toList := by
      rintro rfl
      simp at hno
    rw [branchAndKind_of_no_dash hno, or_iff_left hdash]
  | some parts =>
    obtain ⟨rfl, hno⟩ := cutAtLastDash?_eq_some_iff.1 hcut
    have hword : parts.1 ++ '-' :: parts.2 ≠ kind.token.toList := fun h =>
      dash_not_mem_token kind (by simp [← h])
    rw [branchAndKind_of_dash hno, or_iff_right fun h => hword h.2.2]

/-- The stem of a path's file name, as a text. -/
def stemOf (p : Path) : String :=
  (p.stem?.map Utf8.decodeLossy).getD ""

/-- A path has an identity if its directories have names and its stem starts with them and says the
branch and the kind. -/
theorem ofPath_eq_ok_iff : ofPath p = .ok i ↔ i.file = p ∧
    dirName? (p.parent?.getD ⟨[]⟩) = some i.repo ∧
    dirName? ((p.parent?.getD ⟨[]⟩).parent?.getD ⟨[]⟩) = some i.org ∧
    ∃ rest, (stemOf p).toList = (nameStart i.org i.repo).toList ++ rest ∧
      branchAndKind (stemOf p) rest = .ok (i.branch, i.kind) := by
  obtain ⟨org, repo, branch, kind, file⟩ := i
  simp only [ofPath, stemOf, bind, Except.bind, pure, Except.pure, ← dropStart?_eq_some_iff]
  constructor
  · intro h
    split at h
    · rename_i repo' hrepo
      split at h
      · rename_i org' horg
        split at h
        · rename_i rest hrest
          split at h
          · cases h
          · rename_i bk hbk
            cases h
            exact ⟨rfl, hrepo, horg, rest, hrest, hbk⟩
        · cases h
      · cases h
    · cases h
  · rintro ⟨rfl, hrepo, horg, rest, hrest, hbk⟩
    simp only [hrepo, horg, hrest, hbk]

/-! ### Names of text paths -/

end Identity

namespace Path

variable {p : Path} {n before after : Bytes}

theorem eq_of_cutName (h : cutName n = (before, some after)) : n = before ++ dot :: after := by
  simp only [cutName] at h
  split at h
  · cases h
  · rename_i hne
    rw [Prod.mk.injEq, Option.some.injEq] at h
    obtain ⟨rfl, rfl⟩ := h
    have hcut := n.reverse.takeWhile_append_dropWhile (p := (· != dot))
    cases hd : n.reverse.dropWhile (· != dot) with
    | nil => simp [hd] at hne
    | cons b bs =>
      -- what the search stops at is the point
      have hb : b = dot := by
        have hhead := List.head?_dropWhile_not (· != dot) n.reverse
        rw [hd] at hhead
        simpa using hhead
      rw [hd, hb] at hcut
      have hrev := congrArg List.reverse hcut
      simpa using hrev.symm

/-- The name at the end of a path is one of its pieces. -/
theorem mem_pieces_of_fileName? (h : p.fileName? = some n) : n ∈ p.pieces := by
  rw [fileName?] at h
  split at h
  · rename_i m hlast
    cases h
    have hmem := List.mem_of_getLast? hlast
    rw [components, List.mem_append, List.mem_filterMap] at hmem
    rcases hmem with hlead | ⟨q, hq, hpiece⟩
    · rw [lead] at hlead
      split at hlead
      · simp at hlead
      · split at hlead <;> simp at hlead
    · rw [ofPiece?] at hpiece
      split at hpiece
      · cases hpiece
      · split at hpiece
        · cases hpiece
        · cases hpiece
          exact hq
  · cases h

/-- The file name of a path that is a text is a text. -/
theorem IsText.shown_fileName? (hp : p.IsText) (h : p.fileName? = some n) : Utf8.shown n = n := by
  have hmem := mem_pieces_of_fileName? h
  exact List.map_inj_left.1 (hp.map_shown_pieces.trans (List.map_id _).symm) n hmem

end Path

/-! ### Building names again -/

namespace Identity

variable {p : Path} {i : Identity}

/-- The name of a job file is its stem and the extension. -/
theorem fileName?_eq_stemOf (hp : p.IsText) (he : p.extension? = some jobExtension) :
    p.fileName? = some (Utf8.encode (stemOf p ++ ".yaml")) := by
  obtain ⟨n, hn, hcut⟩ := Option.bind_eq_some_iff.1 he
  have hcut : Path.cutName n = ((Path.cutName n).1, some jobExtension) := Prod.ext rfl hcut
  have hsplit := Path.eq_of_cutName hcut
  have hshown := hp.shown_fileName? hn
  have hstem : stemOf p = Utf8.decodeLossy (Path.cutName n).1 := by
    rw [stemOf, Path.stem?, hn]
    rfl
  -- the name is a text, and so is its part before the point
  rw [hsplit, Utf8.shown_append_cons (by decide)] at hshown
  have htext : Utf8.shown (Path.cutName n).1 = (Path.cutName n).1 := by
    have hext : Utf8.shown jobExtension = jobExtension := Utf8.shown_encode "yaml"
    rw [hext] at hshown
    exact List.append_cancel_right hshown
  rw [hn, hstem, Utf8.encode_append, ← Utf8.shown, htext]
  exact congrArg some hsplit

/-- The name with a stem's end behind organisation and repository. -/
def nameWith (org repo : String) (rest : List Char) : String :=
  nameStart org repo ++ (String.ofList rest ++ ".yaml")

theorem nameWith_inj {org repo : String} {rest rest' : List Char} :
    nameWith org repo rest = nameWith org repo rest' ↔ rest = rest' := by
  simp [nameWith, String.append_right_inj, String.append_left_inj, String.ofList_inj]

theorem fileName_eq_nameWith (org repo branch : String) (kind : Kind) :
    fileName org repo branch kind = nameWith org repo
      (if kind = .periodic ∧ branch = "" then kind.token.toList
        else branch.toList ++ '-' :: kind.token.toList) := by
  rw [fileName_eq, nameWith, ← String.append_assoc, String.append_left_inj, ← String.toList_inj,
    toList_fileStem, String.toList_append, String.toList_ofList]

/-- The name with nothing in front of the dash before the kind. -/
theorem nameStart_dash (org repo : String) (kind : Kind) :
    nameStart org repo ++ ("-" ++ kind.token ++ ".yaml") =
      nameWith org repo ('-' :: kind.token.toList) := by
  rw [nameWith, ← String.toList_inj]
  simp

/-- The name of the file of periodics without a branch. -/
theorem nameStart_word (org repo : String) : nameStart org repo ++ "periodics.yaml" =
    nameWith org repo Kind.periodic.token.toList := by
  rw [nameWith, String.ofList_toList]
  rfl

theorem append_dash_ne_token (cs ds : List Char) (kind : Kind) :
    cs ++ '-' :: ds ≠ kind.token.toList :=
  fun h => dash_not_mem_token kind (by simp [← h])

/-- The name of a job file is built again from what is read from it, unless it is the one with a
dash for the branch of periodics without a branch. The branch that is read is empty for the file of
periodics without a branch, and where there is a dash right before the kind. -/
theorem basename_ofPath (hp : p.IsText) (he : p.extension? = some jobExtension)
    (hi : ofPath p = .ok i) : ∃ name, p.fileName? = some (Utf8.encode name) ∧
      (i.basename = name ↔ name ≠ nameStart i.org i.repo ++ "-periodics.yaml") ∧
      (i.branch = "" ↔ name = nameStart i.org i.repo ++ "periodics.yaml" ∨
        name = nameStart i.org i.repo ++ ("-" ++ i.kind.token ++ ".yaml")) := by
  obtain ⟨-, -, -, rest, hstem, hbk⟩ := ofPath_eq_ok_iff.1 hi
  obtain ⟨org, repo, branch, kind, file⟩ := i
  have hname : stemOf p ++ ".yaml" = nameWith org repo rest := by
    rw [nameWith, ← String.toList_inj]
    simp [hstem]
  refine ⟨_, fileName?_eq_stemOf hp he, ?_⟩
  -- all names begin and end alike, and differ by what is in between
  rw [basename, hname, fileName_eq_nameWith, nameStart_dash, nameStart_word,
    show nameStart org repo ++ "-periodics.yaml" = _ from nameStart_dash org repo .periodic, ne_eq,
    nameWith_inj, nameWith_inj, nameWith_inj, nameWith_inj]
  rcases branchAndKind_eq_ok_iff.1 hbk with ⟨rfl, rfl, rfl⟩ | rfl
  · have hne := Ne.symm (append_dash_ne_token [] Kind.periodic.token.toList .periodic)
    exact ⟨iff_of_true (if_pos ⟨rfl, rfl⟩) hne, iff_of_true rfl (.inl rfl)⟩
  · have hcut : ∀ kind', branch.toList ++ '-' :: kind.token.toList = '-' :: kind'.token.toList ↔
        branch = "" ∧ kind = kind' := fun kind' => by
      rw [← String.toList_eq_nil_iff]
      exact @append_token_inj branch.toList [] kind kind'
    constructor
    · rw [hcut]
      split
      · rename_i h
        exact iff_of_false (append_dash_ne_token _ _ _).symm (not_not.2 h.symm)
      · rename_i h
        exact iff_of_true rfl fun h' => h h'.symm
    · rw [hcut, or_iff_right (append_dash_ne_token _ _ _), and_iff_left rfl]

/-- What is read from the name with two dashes before the kind has no branch, and for periodics that
name is not built again. -/
theorem basename_ne_doubleDash :
    (¬∀ p i, p.IsText → p.extension? = some jobExtension → ofPath p = .ok i →
      p.fileName? = some (Utf8.encode i.basename)) ∧
    ¬∀ p i, p.IsText → p.extension? = some jobExtension → ofPath p = .ok i → i.branch = "" →
      p.fileName? = some (Utf8.encode (nameStart i.org i.repo ++ "periodics.yaml")) := by
  constructor
  · intro h
    have hname := h (.ofString "jobs/o/r/o-r--periodics.yaml")
      ⟨"o", "r", "", .periodic, .ofString "jobs/o/r/o-r--periodics.yaml"⟩ ⟨_, rfl⟩
      (by decide +kernel) (by decide +kernel)
    revert hname
    decide +kernel
  · intro h
    have hname := h (.ofString "jobs/o/r/o-r--presubmits.yaml")
      ⟨"o", "r", "", .presubmit, .ofString "jobs/o/r/o-r--presubmits.yaml"⟩ ⟨_, rfl⟩
      (by decide +kernel) (by decide +kernel) rfl
    revert hname
    decide +kernel

/-- A name with dashes in organisation, repository and branch. -/
theorem basename_ofPath_dashes :
    let p : Path := .ofString "jobs/a-b/c/a-b-c-periodics-x--postsubmits.yaml"
    let i : Identity := ⟨"a-b", "c", "periodics-x-", .postsubmit, p⟩
    p.IsText ∧ p.extension? = some jobExtension ∧ ofPath p = .ok i ∧
      i.basename = "a-b-c-periodics-x--postsubmits.yaml" := by
  intro p i
  have hp : p.IsText := ⟨_, rfl⟩
  have he : p.extension? = some jobExtension := by decide +kernel
  have hi : ofPath p = .ok i := by decide +kernel
  obtain ⟨name, hname, hbase, -⟩ := basename_ofPath hp he hi
  have hfile : p.fileName? = some (Utf8.encode "a-b-c-periodics-x--postsubmits.yaml") := by
    decide +kernel
  rw [hfile, Option.some.injEq, Utf8.encode_inj] at hname
  subst hname
  exact ⟨hp, he, hi, hbase.2 (by decide)⟩

end Identity

end JobConfig
