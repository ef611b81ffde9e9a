import JobConfig.Proofs.FileName

/-!
# The grammar of job files

Which paths are read as which identities, said without the search for a dash: the names of the two
directories above a file are in its components, and its stem is put together from organisation,
repository, branch and kind. Dashes are allowed in all of them but the kind, and yet there is one
reading at most. A path without a reading lacks one of five things.
-/

namespace JobConfig

/-! ### Stems -/

namespace Path

variable {p : Path} {n s : Bytes}

theorem cutName_of_not_mem_tail (h : dot ∉ n.tail) : cutName n = (n, none) := by
  cases n with
  | nil => rfl
  | cons b n =>
    have hne : ∀ c ∈ n.reverse, (c != dot) = true := by
      rintro c hc
      rw [bne_iff_ne]
      rintro rfl
      exact h (List.mem_reverse.1 hc)
    have hbefore : ((b :: n).reverse.dropWhile (· != dot)).tail = [] := by
      rw [List.reverse_cons, List.dropWhile_append_of_pos hne, List.dropWhile_cons]
      split <;> rfl
    simp only [cutName, hbefore, List.reverse_nil, if_true]

/-- A file name is whole, or cut at a point that has no other behind it. -/
theorem cutName_cases (n : Bytes) : cutName n = (n, none) ∧ dot ∉ n.tail ∨
    ∃ before after, cutName n = (before, some after) ∧ n = before ++ dot :: after ∧
      before ≠ [] ∧ dot ∉ after := by
  by_cases h : dot ∈ n.tail
  · right
    obtain ⟨as, bs, hn, hdot⟩ := List.eq_append_cons_of_mem (List.mem_reverse.2 h)
    obtain ⟨b, n, rfl⟩ := List.exists_cons_of_ne_nil (l := n) (by rintro rfl; cases h)
    have hn : n = bs.reverse ++ dot :: as.reverse := by simpa using congrArg List.reverse hn
    have hdot : dot ∉ as.reverse := by simpa using hdot
    refine ⟨b :: bs.reverse, as.reverse, ?_, by rw [hn]; rfl, by simp, hdot⟩
    rw [hn]
    exact cutName_append (List.cons_ne_nil b _) hdot
  · exact .inl ⟨cutName_of_not_mem_tail h, h⟩

/-- The stem of a file name is what comes before its last point, or all of it where there is no
point behind its first byte. -/
theorem stem?_eq_some_iff : p.stem? = some s ↔ ∃ cs n, p.components = cs ++ [.name n] ∧
    (n = s ∧ dot ∉ n.tail ∨ ∃ after, n = s ++ dot :: after ∧ s ≠ [] ∧ dot ∉ after) := by
  have hcut : ∀ n, (cutName n).1 = s ↔ n = s ∧ dot ∉ n.tail ∨
      ∃ after, n = s ++ dot :: after ∧ s ≠ [] ∧ dot ∉ after := by
    intro n
    constructor
    · rintro rfl
      rcases cutName_cases n with ⟨hn, hdot⟩ | ⟨before, after, hn, hsplit, hne, hdot⟩
      · exact .inl ⟨by rw [hn], hdot⟩
      · rw [hn]
        exact .inr ⟨after, hsplit, hne, hdot⟩
    · rintro (⟨rfl, hdot⟩ | ⟨after, rfl, hne, hdot⟩)
      · rw [cutName_of_not_mem_tail hdot]
      · rw [cutName_append hne hdot]
  rw [stem?, Option.map_eq_some_iff]
  simp only [hcut, fileName?_eq_some_iff]
  rw [exists_comm]
  simp only [exists_and_right]

end Path

namespace Identity

variable {p : Path} {i j : Identity} {e : NameError} {org repo stem : String} {rest : List Char}

/-! ### Readings -/

/-- The name of the directory that a path lies in. -/
def repoName? (p : Path) : Option String :=
  p.parent?.bind dirName?

/-- The name of the directory above that one. -/
def orgName? (p : Path) : Option String :=
  (p.parent?.bind Path.parent?).bind dirName?

/-- What it means that a path reads as an identity. -/
structure Reads (p : Path) (i : Identity) : Prop where
  file : i.file = p
  repo : repoName? p = some i.repo
  org : orgName? p = some i.org
  stem : stemOf p = nameStart i.org i.repo ++ "periodics" ∧ i.branch = "" ∧ i.kind = .periodic ∨
    stemOf p = nameStart i.org i.repo ++ i.branch ++ "-" ++ i.kind.token

theorem dirName?_getD_parent? (p : Path) : dirName? (p.parent?.getD ⟨[]⟩) = repoName? p := by
  unfold repoName?
  cases p.parent? <;> rfl

theorem dirName?_getD_parent?_parent? (p : Path) :
    dirName? ((p.parent?.getD ⟨[]⟩).parent?.getD ⟨[]⟩) = orgName? p := by
  unfold orgName?
  cases p.parent? with
  | none => rfl
  | some q => exact dirName?_getD_parent? q

theorem eq_append_iff {s t : String} :
    s = t ++ String.ofList rest ↔ s.toList = t.toList ++ rest := by
  rw [← String.toList_inj, String.toList_append, String.toList_ofList]

theorem ofPath_eq_ok_iff_reads : ofPath p = .ok i ↔ Reads p i := by
  rw [ofPath_eq_ok_iff, dirName?_getD_parent?, dirName?_getD_parent?_parent?]
  simp only [branchAndKind_eq_ok_iff]
  constructor
  · rintro ⟨hfile, hrepo, horg, rest, hstem, hrest⟩
    refine ⟨hfile, hrepo, horg, ?_⟩
    simp only [← String.toList_inj, hstem]
    rcases hrest with ⟨hb, hk, rfl⟩ | rfl
    · left
      simp [hb, hk, Kind.token]
    · right
      simp
  · rintro ⟨hfile, hrepo, horg, hstem⟩
    refine ⟨hfile, hrepo, horg, ?_⟩
    rcases hstem with ⟨hstem, hb, hk⟩ | hstem
    · exact ⟨_, by rw [hstem, String.toList_append], .inl ⟨hb, hk, by rw [hk]; rfl⟩⟩
    · refine ⟨_, ?_, .inr rfl⟩
      rw [hstem]
      simp

/-! ### Errors -/

/-- What a path lacks that has all that is looked for before. -/
inductive Lacks (p : Path) : NameError → Prop
  | repo (h : repoName? p = none) : Lacks p (.noRepo p)
  | org {repo : String} (hrepo : repoName? p = some repo) (h : orgName? p = none) :
    Lacks p (.noOrg p)
  | start {org repo : String} (hrepo : repoName? p = some repo) (horg : orgName? p = some org)
    (h : ∀ rest, stemOf p ≠ nameStart org repo ++ rest) :
    Lacks p (.missingPrefix (nameStart org repo) (stemOf p))
  | dash {org repo rest : String} (hrepo : repoName? p = some repo) (horg : orgName? p = some org)
    (hstem : stemOf p = nameStart org repo ++ rest) (h : '-' ∉ rest.toList) :
    Lacks p (.missingKind (stemOf p))
  | kind {org repo before token : String} (hrepo : repoName? p = some repo)
    (horg : orgName? p = some org) (hstem : stemOf p = nameStart org repo ++ before ++ "-" ++ token)
    (h : '-' ∉ token.toList) : Lacks p (.unknownKind token (stemOf p))

theorem ofPath_of_no_repo (h : repoName? p = none) : ofPath p = .error (.noRepo p) := by
  simp only [ofPath]
  rw [dirName?_getD_parent?, h]

theorem ofPath_of_no_org (hrepo : repoName? p = some repo) (h : orgName? p = none) :
    ofPath p = .error (.noOrg p) := by
  simp only [ofPath, dirName?_getD_parent?_parent?, h]
  rw [dirName?_getD_parent?, hrepo]

/-- Where the directories have names, the rest is up to the stem. -/
theorem ofPath_eq (hrepo : repoName? p = some repo) (horg : orgName? p = some org) : ofPath p =
    match dropStart? (nameStart org repo).toList (stemOf p).toList with
    | none => .error (.missingPrefix (nameStart org repo) (stemOf p))
    | some rest => (branchAndKind (stemOf p) rest).map fun (branch, kind) =>
        { org, repo, branch, kind, file := p } := by
  simp only [ofPath, dirName?_getD_parent?_parent?, horg, bind, Except.bind, pure, Except.pure]
  rw [dirName?_getD_parent?, hrepo]
  simp only [stemOf]
  split
  · rename_i rest hrest
    simp only [hrest]
    split <;> rename_i hbk <;> rw [hbk] <;> rfl
  · rename_i hrest
    rw [Option.eq_none_iff_forall_ne_some.2 hrest]

theorem ofPath_of_stem (hrepo : repoName? p = some repo) (horg : orgName? p = some org)
    (hstem : stemOf p = nameStart org repo ++ String.ofList rest) : ofPath p =
      (branchAndKind (stemOf p) rest).map fun (branch, kind) =>
        { org, repo, branch, kind, file := p } := by
  rw [ofPath_eq hrepo horg, dropStart?_eq_some_iff.2 (eq_append_iff.1 hstem)]

/-- Behind organisation and repository a dash is missing, or the word for a kind. -/
theorem branchAndKind_eq_error_iff : branchAndKind stem rest = .error e ↔
    (∀ bk, branchAndKind stem rest ≠ .ok bk) ∧ ('-' ∉ rest ∧ e = .missingKind stem ∨
      ∃ before token, rest = before ++ '-' :: token ∧ '-' ∉ token ∧
        e = .unknownKind (String.ofList token) stem) := by
  constructor
  · intro h
    refine ⟨by simp [h], ?_⟩
    unfold branchAndKind at h
    split at h
    · rename_i hcut
      split at h <;> cases h
      exact .inl ⟨cutAtLastDash?_eq_none_iff.1 hcut, rfl⟩
    · rename_i before token hcut
      obtain ⟨hrest, hno⟩ := cutAtLastDash?_eq_some_iff.1 hcut
      split at h <;> cases h
      exact .inr ⟨before, token, hrest, hno, rfl⟩
  · rintro ⟨hok, ⟨hno, rfl⟩ | ⟨before, token, rfl, hno, rfl⟩⟩
    · simp only [branchAndKind, cutAtLastDash?_of_not_mem hno] at hok ⊢
      split
      · rename_i hword
        exact absurd (if_pos hword) (hok _)
      · rfl
    · simp only [branchAndKind, cutAtLastDash?_append hno] at hok ⊢
      split
      · rename_i kind hkind
        refine absurd ?_ (hok (String.ofList before, kind))
        rw [hkind]
      · rfl

/-- Behind organisation and repository, a stem has a reading or the error that its end has. -/
theorem ofPath_eq_error_of_stem (hrepo : repoName? p = some repo) (horg : orgName? p = some org)
    (hstem : stemOf p = nameStart org repo ++ String.ofList rest) :
    ofPath p = .error e ↔ (∀ i, ofPath p ≠ .ok i) ∧ ('-' ∉ rest ∧ e = .missingKind (stemOf p) ∨
      ∃ before token, rest = before ++ '-' :: token ∧ '-' ∉ token ∧
        e = .unknownKind (String.ofList token) (stemOf p)) := by
  have hok : (∀ i, ofPath p ≠ .ok i) ↔ ∀ bk, branchAndKind (stemOf p) rest ≠ .ok bk := by
    rw [ofPath_of_stem hrepo horg hstem]
    cases branchAndKind (stemOf p) rest <;> simp [Except.map]
  rw [hok, ← branchAndKind_eq_error_iff, ofPath_of_stem hrepo horg hstem]
  cases branchAndKind (stemOf p) rest <;> simp [Except.map]

theorem lacks_of_ofPath (h : ofPath p = .error e) : Lacks p e := by
  cases hrepo : repoName? p with
  | none =>
    rw [ofPath_of_no_repo hrepo] at h
    cases h
    exact .repo hrepo
  | some repo =>
    cases horg : orgName? p with
    | none =>
      rw [ofPath_of_no_org hrepo horg] at h
      cases h
      exact .org hrepo horg
    | some org =>
      cases hrest : dropStart? (nameStart org repo).toList (stemOf p).toList with
      | none =>
        rw [ofPath_eq hrepo horg, hrest] at h
        cases h
        refine .start hrepo horg fun rest hstem => ?_
        rw [hstem, String.toList_append, dropStart?_append] at hrest
        cases hrest
      | some rest =>
        have hstem := eq_append_iff.2 (dropStart?_eq_some_iff.1 hrest)
        rcases ((ofPath_eq_error_of_stem hrepo horg hstem).1 h).2 with
          ⟨hno, rfl⟩ | ⟨before, token, rfl, hno, rfl⟩
        · exact .dash hrepo horg hstem (by rwa [String.toList_ofList])
        · have hkind : stemOf p =
              nameStart org repo ++ String.ofList before ++ "-" ++ String.ofList token := by
            rw [hstem, ← String.toList_inj]
            simp
          exact .kind hrepo horg hkind (by rwa [String.toList_ofList])

/-- The error of a path without a reading says what it lacks. -/
theorem ofPath_eq_error_iff : ofPath p = .error e ↔ (∀ i, ofPath p ≠ .ok i) ∧ Lacks p e := by
  refine ⟨fun h => ⟨by simp [h], lacks_of_ofPath h⟩, fun ⟨hok, h⟩ => ?_⟩
  cases h with
  | repo h => exact ofPath_of_no_repo h
  | org hrepo h => exact ofPath_of_no_org hrepo h
  | start hrepo horg h =>
    rw [ofPath_eq hrepo horg]
    split
    · rfl
    · rename_i rest hrest
      exact absurd (eq_append_iff.2 (dropStart?_eq_some_iff.1 hrest)) (h _)
  | @dash org repo rest hrepo horg hstem h =>
    rw [← String.ofList_toList (s := rest)] at hstem
    exact (ofPath_eq_error_of_stem hrepo horg hstem).2 ⟨hok, .inl ⟨h, rfl⟩⟩
  | @kind org repo before token hrepo horg hstem h =>
    have hrest : stemOf p =
        nameStart org repo ++ String.ofList (before.toList ++ '-' :: token.toList) := by
      rw [hstem, ← String.toList_inj]
      simp
    refine (ofPath_eq_error_of_stem hrepo horg hrest).2 ⟨hok, .inr ⟨_, _, rfl, h, ?_⟩⟩
    rw [String.ofList_toList]

/-! ### The grammar -/

theorem bind_dirName? (o : Option Path) :
    o.bind dirName? = (o.bind Path.fileName?).map Utf8.decodeLossy := by
  cases o <;> rfl

/-- The directory's name is the component in front of the last one. -/
theorem repoName?_eq_some_iff {name : String} : repoName? p = some name ↔
    ∃ cs n c, p.components = cs ++ [.name n, c] ∧ Utf8.decodeLossy n = name := by
  rw [repoName?, bind_dirName?, Option.map_eq_some_iff]
  simp only [Path.fileName?_parent?_eq_some_iff]
  constructor
  · rintro ⟨n, ⟨cs, c, hc⟩, hn⟩
    exact ⟨cs, n, c, hc, hn⟩
  · rintro ⟨cs, n, c, hc, hn⟩
    exact ⟨n, ⟨cs, c, hc⟩, hn⟩

/-- The name of the directory above is the component before that. -/
theorem orgName?_eq_some_iff {name : String} : orgName? p = some name ↔
    ∃ cs n c d, p.components = cs ++ [.name n, c, d] ∧ Utf8.decodeLossy n = name := by
  rw [orgName?, bind_dirName?, Option.map_eq_some_iff]
  simp only [Path.fileName?_parent?_parent?_eq_some_iff]
  constructor
  · rintro ⟨n, ⟨cs, c, d, hd⟩, hn⟩
    exact ⟨cs, n, c, d, hd, hn⟩
  · rintro ⟨cs, n, c, d, hd, hn⟩
    exact ⟨n, ⟨cs, c, d, hd⟩, hn⟩

/-- A path is read as an identity just if it says it, so in one way at most; or else the error is
the first thing that it lacks. The names of the directories and the stem are those that the
components of the path give. -/
theorem ofPath_grammar (p : Path) :
    (∀ i, ofPath p = .ok i ↔ Reads p i) ∧
    (∀ i j, Reads p i → Reads p j → i = j) ∧
    (∀ e, ofPath p = .error e ↔ (∀ i, ¬Reads p i) ∧ Lacks p e) ∧
    (∀ name, repoName? p = some name ↔
      ∃ cs n c, p.components = cs ++ [.name n, c] ∧ Utf8.decodeLossy n = name) ∧
    (∀ name, orgName? p = some name ↔
      ∃ cs n c d, p.components = cs ++ [.name n, c, d] ∧ Utf8.decodeLossy n = name) ∧
    ∀ s, p.stem? = some s ↔ ∃ cs n, p.components = cs ++ [.name n] ∧
      (n = s ∧ Path.dot ∉ n.tail ∨
        ∃ after, n = s ++ Path.dot :: after ∧ s ≠ [] ∧ Path.dot ∉ after) := by
  refine ⟨fun i => ofPath_eq_ok_iff_reads, fun i j hi hj => ?_, fun e => ?_,
    fun name => repoName?_eq_some_iff, fun name => orgName?_eq_some_iff,
    fun s => Path.stem?_eq_some_iff⟩
  · have hij := (ofPath_eq_ok_iff_reads.2 hi).symm.trans (ofPath_eq_ok_iff_reads.2 hj)
    exact Except.ok.inj hij
  · simp only [← ofPath_eq_ok_iff_reads]
    exact ofPath_eq_error_iff

/-- The dashes of a name are part of the branch but for the last one. -/
example : ofPath (.ofString "./a/b-c/a-b-c-d--e.f-presubmits.yaml") =
    .ok ⟨"a", "b-c", "d--e.f", .presubmit, .ofString "./a/b-c/a-b-c-d--e.f-presubmits.yaml"⟩ := by
  decide +kernel

end Identity

end JobConfig
