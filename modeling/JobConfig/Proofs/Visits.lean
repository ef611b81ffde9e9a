import JobConfig.Proofs.Grammar
import JobConfig.Proofs.Walk
import Mathlib.Data.List.Infix

/-!
# What a walk visits

A walk visits what is inside its root: the root itself if it is no directory, or else what its
directories hold, where a link holds nothing. The part of the walk below some names is the walk from
the path of these names, if no link is on the way.
-/

namespace JobConfig

/-! ### Paths of names -/

theorem Component.name_injective : Function.Injective Component.name :=
  fun _ _ => Component.name.inj

namespace Path

variable {p q : Path} {names : List Bytes}

theorem lead_of_components (h : q.components = names.map .name) : q.lead = [] := by
  rw [components] at h
  rcases lead_cases q with hl | hl | hl
  · rw [hl] at h
    cases names <;> cases h
  · rw [hl] at h
    cases names <;> cases h
  · exact hl

theorem pieces_of_components (h : q.components = names.map .name) :
    q.pieces.filterMap ofPiece? = names.map .name := by
  rwa [components, lead_of_components h] at h

theorem fileName?_congr (h : p.components = q.components) : p.fileName? = q.fileName? := by
  rw [fileName?, h, fileName?]

end Path

/-! ### Identities and components -/

namespace Identity

variable {p q : Path} {i : Identity}

theorem reads_congr (h : p.components = q.components) (hi : Reads p i) :
    Reads q { i with file := q } where
  file := rfl
  repo := by
    rw [repoName?_eq_some_iff, ← h]
    exact repoName?_eq_some_iff.1 hi.repo
  org := by
    rw [orgName?_eq_some_iff, ← h]
    exact orgName?_eq_some_iff.1 hi.org
  stem := by
    have hstem : stemOf q = stemOf p := by
      rw [stemOf, Path.stem?, ← Path.fileName?_congr h, ← Path.stem?, stemOf]
    rw [hstem]
    exact hi.stem

/-- What the path of a job file says is said by its components. -/
theorem ofJobFile?_congr (h : p.components = q.components) :
    ofJobFile? q = (ofJobFile? p).map fun i => { i with file := q } := by
  have hext : p.extension? = q.extension? := by
    rw [Path.extension?, Path.fileName?_congr h, Path.extension?]
  refine Option.ext fun i => ?_
  rw [Option.map_eq_some_iff]
  simp only [ofJobFile?_eq_some_iff, ofPath_eq_ok_iff_reads, hext]
  constructor
  · rintro ⟨he, hi⟩
    exact ⟨{ i with file := p }, ⟨he, reads_congr h.symm hi⟩, by rw [← hi.file]⟩
  · rintro ⟨j, ⟨he, hj⟩, rfl⟩
    exact ⟨he, reads_congr h hj⟩

/-- Whether two identities say the same of files whose paths have the same components. -/
structure Same (i j : Identity) : Prop where
  file : i.file.components = j.file.components
  rest : { i with file := j.file } = j

theorem Same.refl (i : Identity) : Same i i := ⟨rfl, rfl⟩

/-- Job files whose paths have the same components have the same identity. -/
theorem rel_ofJobFile? (h : p.components = q.components) :
    Option.Rel Same (ofJobFile? p) (ofJobFile? q) := by
  rw [ofJobFile?_congr h]
  cases hi : ofJobFile? p with
  | none => exact .none
  | some i => exact .some ⟨(file_of_ofJobFile? hi).1 ▸ h, rfl⟩

end Identity

namespace FileTree

variable {t : FileTree} {root : Path} {k l names : Location} {e : Entry} {i : Identity}
  {f : Identity → Except Failure Unit}

/-! ### The job files that a walk comes to -/

/-- Whether names lead from a root to a job file with an identity. -/
structure IsJobFile (t : FileTree) (root : Path) (l names : Location) (i : Identity) : Prop where
  entry : ∃ e, t.Inside l names e ∧ e ≠ .directory
  extension : (under root names).extension? = some jobExtension
  identity : Identity.ofPath (under root names) = .ok i

theorem mem_identities (h : t.lookup false root = .ok (l, e)) :
    i ∈ t.identities root ↔ ∃ names, t.IsJobFile root l names i := by
  rw [identities_eq h, List.mem_filterMap]
  simp only [identityOf?, Option.ite_none_left_eq_some, Prod.exists, mem_inside,
    Identity.ofJobFile?_eq_some_iff]
  constructor
  · rintro ⟨names, e, hin, hne, hext, hi⟩
    exact ⟨names, ⟨e, hin, hne⟩, hext, hi⟩
  · rintro ⟨names, ⟨e, hin, hne⟩, hext, hi⟩
    exact ⟨names, e, hin, hne, hext, hi⟩

theorem IsJobFile.file (h : t.IsJobFile root l names i) : i.file = under root names :=
  (Identity.ofPath_eq_ok_iff_reads.1 h.identity).file

theorem IsJobFile.components (h : t.IsJobFile root l names i) :
    i.file.components = root.components ++ names.map .name := by
  obtain ⟨e, hin, -⟩ := h.entry
  rw [h.file, components_under hin.named]

/-- An identity is that of one entry only. -/
theorem IsJobFile.names_eq {names' : Location} (h : t.IsJobFile root l names i)
    (h' : t.IsJobFile root l names' i) : names = names' := by
  have hc := h.components.symm.trans h'.components
  exact Component.name_injective.list_map (List.append_cancel_left hc)

/-! ### The part of a walk below some names -/

/-- Pieces of names lead to what the names lead to, if they lead anywhere and no link is on the
way. -/
theorem step_names {qs : List Bytes} (hk : t.get? k = some .directory)
    (hqs : qs.filterMap Path.ofPiece? = names.map .name)
    (hno : ∀ ns, ns <+: names → t.linkAt? (k ++ ns) = none) :
    ∃ r, (∀ follow m, t.step follow m k qs = r) ∧ ∀ s, r = .ok s → s = t.spot (k ++ names) := by
  induction qs generalizing k names with
  | nil =>
    obtain rfl : names = [] := List.map_eq_nil_iff.1 hqs.symm
    refine ⟨_, fun follow m => step_nil m k, ?_⟩
    rintro s ⟨⟩
    rw [List.append_nil, spot, hk]
  | cons q qs ih =>
    rw [List.filterMap_cons] at hqs
    by_cases hb : Path.isBlank q = true
    · rw [show Path.ofPiece? q = none from if_pos hb] at hqs
      obtain ⟨r, hr, hs⟩ := ih hk hqs hno
      exact ⟨r, fun follow m => by rw [step_cons, if_pos hb, hr], hs⟩
    by_cases hu : q = [Path.dot, Path.dot]
    · subst hu
      cases names <;> cases hqs
    rw [show Path.ofPiece? q = some (.name q) by rw [Path.ofPiece?, if_neg hb, if_neg hu]] at hqs
    rw [Bool.not_eq_true] at hb
    obtain ⟨m, names, rfl⟩ : ∃ m ms, names = m :: ms :=
      List.exists_cons_of_ne_nil (by rintro rfl; cases hqs)
    obtain ⟨hm, hrest⟩ := List.cons.inj hqs
    obtain rfl := Component.name.inj hm
    by_cases hd : t.get? (k ++ [q]) = some .directory
    · -- the names that are left lead on from the directory
      obtain ⟨r, hr, hs⟩ := ih hd hrest fun ns hns => by
        rw [List.append_assoc]
        exact hno _ ((List.prefix_cons_inj q).2 hns)
      rw [List.append_assoc] at hs
      exact ⟨r, fun follow m => by rw [step_cons, if_neg (by simp [hb]), if_neg hu, hd, hr], hs⟩
    · -- the way ends here, and blank pieces, that name nothing, are all that may follow
      have hend (h : ∀ b ∈ qs, Path.isBlank b = true) : names = [] := by
        rw [Path.filterMap_ofPiece?_of_blank h] at hrest
        exact List.map_eq_nil_iff.1 hrest.symm
      refine ⟨_, fun follow m => step_end hb hu (hno [q] (by simp)) hd follow m qs, fun s hs => ?_⟩
      split at hs <;> split at hs <;> cases hs
      · rename_i hg hnil
        rw [hend (by simp [hnil]), spot, hg]
      · rename_i hg hall
        rw [hend fun b hb => by rw [beq_iff_eq.1 (List.all_eq_true.1 hall b hb)]; rfl, spot, hg]

/-- Names that are joined to a path to a directory lead on from there, if they lead anywhere and no
link is on the way. -/
theorem lookup_join_names {sub : Path} (hroot : t.lookup false root = .ok (k, .directory))
    (hsub : sub.components = names.map .name)
    (hno : ∀ ns, ns <+: names → t.linkAt? (k ++ ns) = none) :
    ∃ r, (∀ follow, t.lookup follow (root.join sub) = r) ∧ ∀ c, r = .ok c → c.1 = k ++ names := by
  have hdir : t.resolve true root = .ok (.at k .directory) :=
    (KeepsWays.refl t).resolve (resolve_of_lookup hroot) (by simp)
  obtain ⟨m, hm⟩ := resolve_join_relative
    (Path.isAbsolute_of_lead (Path.lead_of_components hsub)) hdir
  obtain ⟨r, hr, hspot⟩ := step_names (leads_of_lookup hroot).2 (Path.pieces_of_components hsub) hno
  refine ⟨_, fun follow => by rw [lookup, hm, hr], fun c hc => ?_⟩
  split at hc
  · rename_i hs
    cases hc
    rw [← t.spot_location (k ++ names), ← hspot _ rfl]
    rfl
  · cases hc
  · cases hc

/-- What a walk finds below some names has these names in its path. -/
theorem isPrefixOf_components_under (names : Location) (hn : Named l) (p : Path) :
    (p.components ++ names.map Component.name).isPrefixOf (under p l).components =
      names.isPrefixOf l := by
  rw [components_under hn, Bool.eq_iff_iff, List.isPrefixOf_iff_prefix, List.isPrefixOf_iff_prefix,
    List.prefix_append_right_inj]
  exact List.prefix_map_iff_of_injective Component.name_injective

/-- The job files below some names, in the walk from a root. -/
theorem filter_identities (h : t.lookup false root = .ok (l, e)) (names : Location) :
    ((t.identities root).filter fun i =>
      (root.components ++ names.map Component.name).isPrefixOf i.file.components) =
      (t.inside (l ++ names)).filterMap fun c => identityOf? root (names ++ c.1, c.2) := by
  have hfilter : ∀ c ∈ t.inside l,
      ((identityOf? root c).filter fun i =>
        (root.components ++ names.map Component.name).isPrefixOf i.file.components) =
        if names.isPrefixOf c.1 then identityOf? root c else none := by
    intro c hc
    have hprefix := isPrefixOf_components_under names (mem_inside.1 hc).named root
    cases hi : identityOf? root c with
    | none => simp
    | some i =>
      have hfile : i.file = under root c.1 := by
        rw [identityOf?, Option.ite_none_left_eq_some] at hi
        exact (Identity.file_of_ofJobFile? hi.2).1
      rw [Option.filter_some, hfile, hprefix]
  calc _ = (t.inside l).filterMap fun c => (identityOf? root c).filter fun i =>
          (root.components ++ names.map Component.name).isPrefixOf i.file.components := by
        rw [identities_eq h, List.filter_filterMap]
    _ = ((t.inside l).filter fun c => names.isPrefixOf c.1).filterMap (identityOf? root) := by
        rw [List.filterMap_filter]
        exact List.filterMap_congr hfilter
    _ = _ := by
        rw [← inside_append, List.filterMap_map]
        rfl

/-- Whether identities `js` are those of `is` whose files are at or below a path that names lead to
from a root. Their files are written as in `is` if the path is written as the walk would. -/
structure IsPart (root part : Path) (names : Location) (is js : List Identity) : Prop where
  same : List.Forall₂ Identity.Same js
    (is.filter fun i => part.components.isPrefixOf i.file.components)
  eq : part = under root names →
    js = is.filter fun i => part.components.isPrefixOf i.file.components

/-- The walk from names that are joined to the root visits what the walk from the root visits below
these names. -/
theorem identities_join_names {sub : Path} {c : Location × Entry}
    (hroot : t.lookup false root = .ok (k, .directory)) (hsub : sub.components = names.map .name)
    (hno : ∀ ns, ns <+: names → t.linkAt? (k ++ ns) = none)
    (hc : t.lookup false (root.join sub) = .ok c) :
    IsPart root (root.join sub) names (t.identities root) (t.identities (root.join sub)) := by
  have hcomps : (root.join sub).components = root.components ++ names.map .name := by
    rw [Path.components_join_relative (Path.lead_of_components hsub), hsub]
  obtain ⟨l, e⟩ := c
  obtain ⟨r, hr, hplace⟩ := lookup_join_names hroot hsub hno
  obtain rfl : l = k ++ names := hplace (l, e) ((hr false).symm.trans hc)
  have hpart : ((t.identities root).filter fun i =>
      (root.join sub).components.isPrefixOf i.file.components) =
      (t.inside (k ++ names)).filterMap fun c => identityOf? root (names ++ c.1, c.2) := by
    rw [hcomps, filter_identities hroot]
  rw [identities_eq hc]
  refine ⟨?_, fun heq => ?_⟩ <;> rw [hpart]
  · refine List.rel_filterMap (fun _ _ hrel => hrel) (List.forall₂_same.2 fun c hc => ?_)
    have hin : t.Inside k (names ++ c.1) c.2 := by
      have hmem := inside_iff.1 (mem_inside.1 hc)
      rw [List.append_assoc] at hmem
      exact inside_iff.2 hmem
    rw [identityOf?, identityOf?]
    split
    · exact .none
    · refine Identity.rel_ofJobFile? ?_
      rw [components_under (mem_inside.1 hc).named, components_under hin.named, hcomps,
        List.map_append, List.append_assoc]
  · refine List.filterMap_congr fun c _ => ?_
    rw [identityOf?, identityOf?, heq, under_append]

/-! ### What the walk visits -/

/-- Whether identities are those of the job files that a walk from a root comes to: of each job file
inside the location of the root, once, and of nothing behind a link. -/
structure Visited (t : FileTree) (root : Path) (l : Location) (is : List Identity) : Prop where
  mem_iff : ∀ i, i ∈ is ↔ ∃ names, t.IsJobFile root l names i
  once : is.Nodup
  apart : ∀ i names names', t.IsJobFile root l names i → t.IsJobFile root l names' i →
    names = names'
  unlinked : ∀ names target i, t.Inside l names (.link target) → i ∈ is →
    (under root names).components <+: i.file.components → i.file = under root names

theorem visited_identities (h : t.lookup false root = .ok (l, e)) :
    t.Visited root l (t.identities root) where
  mem_iff _ := mem_identities h
  once := t.nodup_identities root
  apart _ _ _ := IsJobFile.names_eq
  unlinked names target i hl hi hprefix := by
    obtain ⟨names', hjob⟩ := (mem_identities h).1 hi
    obtain ⟨e, hin, -⟩ := hjob.entry
    rw [hjob.components, components_under hl.named, List.prefix_append_right_inj,
      List.prefix_map_iff_of_injective Component.name_injective] at hprefix
    obtain ⟨rest, rfl⟩ := hprefix
    rw [hl.eq_nil_of_link hin, List.append_nil] at hjob
    exact hjob.file

theorem walkFrom_of_ok (hf : ∀ i, f i = .ok ()) (root : Path) :
    t.walkFrom f root = (t.identities root, .ok ()) := by
  rw [walkFrom_eq_visit]
  rcases visit_cases f (t.identities root) with ⟨-, hv⟩ | ⟨_, i, _, _, -, -, hi, -⟩
  · exact hv
  · rw [hf i] at hi
    cases hi

/-- The walk from a part of the root directory, which is the directory if the part is empty. -/
theorem identities_scanRoot {sub : Path} (hroot : t.lookup false root = .ok (k, .directory))
    (hsub : sub.components = names.map .name)
    (hno : ∀ ns, ns <+: names → t.linkAt? (k ++ ns) = none) :
    (t.contains (scanRoot root sub) = false → t.identities (scanRoot root sub) = []) ∧
    (t.contains (scanRoot root sub) = true → IsPart root (scanRoot root sub) names
      (t.identities root) (t.identities (scanRoot root sub))) := by
  rw [scanRoot]
  split
  · -- the part is the whole
    have hdir : t.resolve true root = .ok (.at k .directory) :=
      (KeepsWays.refl t).resolve (resolve_of_lookup hroot) (by simp)
    have hall : ∀ i ∈ t.identities root, root.components.isPrefixOf i.file.components = true := by
      intro i hi
      obtain ⟨names, hjob⟩ := (mem_identities hroot).1 hi
      rw [hjob.components, List.isPrefixOf_iff_prefix]
      exact List.prefix_append _ _
    have hpart := List.filter_eq_self.2 hall
    rw [contains, lookup, hdir]
    refine ⟨fun h => ?_, fun _ => ⟨?_, fun _ => hpart.symm⟩⟩
    · cases h
    · rw [hpart]
      exact List.forall₂_same.2 fun i _ => .refl i
  · obtain ⟨r, hr, -⟩ := lookup_join_names hroot hsub hno
    rw [contains, hr]
    cases r with
    | error refusal =>
      refine ⟨fun _ => identities_eq_nil (hr false), fun h => ?_⟩
      cases h
    | ok c =>
      refine ⟨fun h => ?_, fun _ => identities_join_names hroot hsub hno (hr false)⟩
      cases h

/-- A walk of which no visit fails visits the job files inside its root, each of them once and in the
order of their paths, and nothing behind a link. From a part of the root directory that is reached
through no link, it visits those of them that are at or below that part, if it exists. Identities
compare as their paths do, by the components. -/
theorem walkFrom_visits (t : FileTree) (hf : ∀ i, f i = .ok ()) (root : Path) :
    ∃ is, t.walkFrom f root = (is, .ok ()) ∧
      is.Pairwise (fun i j => compare i.file.sortKey j.file.sortKey = .lt) ∧
      (∀ r, t.lookup false root = .error r → is = []) ∧
      (∀ l e, t.lookup false root = .ok (l, e) → t.Visited root l is) ∧
      ∀ k names sub, t.lookup false root = .ok (k, .directory) →
        sub.components = names.map Component.name →
        (∀ ns, ns <+: names → t.linkAt? (k ++ ns) = none) →
        ∃ js, t.walkFrom f (scanRoot root sub) = (js, .ok ()) ∧
          (t.contains (scanRoot root sub) = false → js = []) ∧
          (t.contains (scanRoot root sub) = true → IsPart root (scanRoot root sub) names is js) := by
  refine ⟨_, walkFrom_of_ok hf root, t.identities_increasing root, fun r => identities_eq_nil,
    fun l e => visited_identities, fun k names sub hroot hsub hno => ?_⟩
  exact ⟨_, walkFrom_of_ok hf _, identities_scanRoot hroot hsub hno⟩

/-- A tree with a link from a repository back to the directory of all jobs, a link to nothing that is
named as a job file, and two organizations of which one has the name of the other before its own. -/
def loopTree : FileTree :=
  [(["jobs"], .directory), (["jobs", "o"], .directory), (["jobs", "o", "r"], .directory),
    (["jobs", "o", "r", "back"], .link (.ofString "../..")),
    (["jobs", "o", "r", "o-r-a-presubmits.yaml"], .file (Utf8.encode "presubmits: {}\n")),
    (["jobs", "o", "r", "o-r-b-presubmits.yaml"], .link (.ofString "gone")),
    (["jobs", "o-x"], .directory), (["jobs", "o-x", "r"], .directory),
    (["jobs", "o-x", "r", "o-x-r-a-presubmits.yaml"], .file [])].foldl
    (fun t e => t.put (e.1.map Utf8.encode) e.2) ∅

/-- The files of identities, as texts. -/
def shownFiles (is : List Identity) : List String :=
  is.map fun i => i.file.display

set_option maxRecDepth 100000 in
/-- The walk visits three files, and from the repository, however its path is written, two. -/
theorem walkFrom_visits_loopTree : ∃ is js,
    loopTree.walkFrom (fun _ => .ok ()) (.ofString "jobs") = (is, .ok ()) ∧
    loopTree.walkFrom (fun _ => .ok ()) (.ofString "jobs/o//r/") = (js, .ok ()) ∧
    shownFiles is = ["jobs/o/r/o-r-a-presubmits.yaml", "jobs/o/r/o-r-b-presubmits.yaml",
      "jobs/o-x/r/o-x-r-a-presubmits.yaml"] ∧
    shownFiles js = ["jobs/o//r/o-r-a-presubmits.yaml", "jobs/o//r/o-r-b-presubmits.yaml"] ∧
    List.Forall₂ Identity.Same js (is.filter fun i =>
      (Path.ofString "jobs/o/r").components.isPrefixOf i.file.components) := by
  have hroot : loopTree.lookup false (.ofString "jobs") =
      .ok (["jobs"].map Utf8.encode, .directory) := toOption_eq_some_iff.1 (by decide +kernel)
  have hsub : (Path.ofString "o//r/").components =
      (["o", "r"].map Utf8.encode).map Component.name := by decide +kernel
  have hno : ∀ ns, ns <+: ["o", "r"].map Utf8.encode →
      loopTree.linkAt? (["jobs"].map Utf8.encode ++ ns) = none := by
    intro ns hns
    have hall : ∀ ns ∈ (["o", "r"].map Utf8.encode).inits,
        loopTree.linkAt? (["jobs"].map Utf8.encode ++ ns) = none := by decide +kernel
    exact hall ns ((List.mem_inits ..).2 hns)
  have hscan : scanRoot (.ofString "jobs") (.ofString "o//r/") = .ofString "jobs/o//r/" := by
    decide +kernel
  obtain ⟨is, his, -, -, -, hpart⟩ := walkFrom_visits loopTree (fun _ => rfl) (.ofString "jobs")
  obtain ⟨js, hjs, -, hsame⟩ := hpart _ _ _ hroot hsub hno
  rw [hscan] at hjs hsame
  obtain rfl := congrArg Prod.fst (his.symm.trans (walkFrom_of_ok (fun _ => rfl) _))
  obtain rfl := congrArg Prod.fst (hjs.symm.trans (walkFrom_of_ok (fun _ => rfl) _))
  exact ⟨_, _, his, hjs, by decide +kernel, by decide +kernel, (hsame (by decide +kernel)).same⟩

end FileTree

end JobConfig
