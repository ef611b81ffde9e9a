import JobConfig.Proofs.Tree.Inside
import JobConfig.Proofs.Tree.Links
import JobConfig.Scan
import Mathlib.Data.List.Basic

/-!
# What a scan finds

A scan of a directory finds the job files below it, each at the place that its names lead to, and in
the order of their paths.
-/

namespace JobConfig

theorem Identity.file_of_ofJobFile? {p : Path} {i : Identity} (h : ofJobFile? p = some i) :
    i.file = p ∧ p.extension? = some jobExtension := by
  rw [ofJobFile?] at h
  split at h
  · rename_i he
    refine ⟨?_, he⟩
    simp only [ofPath, bind, Except.bind, pure, Except.pure] at h
    split at h
    · split at h
      · split at h
        · split at h
          · cases h
          · cases h
            rfl
        · cases h
      · cases h
    · cases h
  · cases h

namespace FileTree

open JobConfig.Path (isName)

variable {t t' : FileTree} {dir p : Path} {names : Location} {i : Identity} {s : JobSet}
  {l k : Location} {c : Bytes}

/-! ### Names below a directory -/

@[simp] theorem under_nil (p : Path) : under p [] = p := rfl

theorem under_append (p : Path) (names names' : Location) :
    under p (names ++ names') = under (under p names) names' :=
  List.foldl_append

theorem under_append_singleton (p : Path) (names : Location) (n : Bytes) :
    under p (names ++ [n]) = (under p names).join ⟨n⟩ :=
  under_append p names [n]

theorem place_under (hn : Named names) (p : Path) : (under p names).place = p.place ++ names := by
  induction names using List.reverseRecOn with
  | nil => simp
  | append_singleton names n ih =>
    rw [under_append_singleton, Path.place_join (hn n (by simp)),
      ih fun m hm => hn m (List.mem_append_left _ hm), List.append_assoc]

/-- Whether a path is that of a name joined to the path of a directory, and the entry of that name
is at a location and no link. -/
def ReachesAt (t : FileTree) (p : Path) (l : Location) : Prop :=
  ∃ q k n, p = q.join ⟨n⟩ ∧ l = k ++ [n] ∧ isName n = true ∧
    t.resolve true q = .ok (.at k .directory) ∧ t.linkAt? l = none

theorem ReachesAt.resolve (h : t.ReachesAt p l) (follow : Bool) :
    t.resolve follow p = .ok (t.spot l) := by
  obtain ⟨q, k, n, rfl, rfl, hn, hq, hno⟩ := h
  exact resolve_join_directory hn hq hno follow

theorem ReachesAt.leads (h : t.ReachesAt p l) (follow : Bool) : t.leads follow p = some l := by
  rw [(leads_of_resolve (h.resolve follow)).1, spot_location]

theorem ReachesAt.mono (h : t.ReachesAt p l) (hw : t.KeepsWays t') : t'.ReachesAt p l := by
  obtain ⟨q, k, n, hp, hl, hn, hq, hno⟩ := h
  exact ⟨q, k, n, hp, hl, hn, hw.resolve hq id, by rw [hw.links, hno]⟩

/-- What is below a directory is reached by its names, if there are no links on the way. -/
theorem reachesAt_under {e : Entry} (hd : t.resolve true dir = .ok (.at k .directory))
    (hno : ∀ names, t.linkAt? (k ++ names) = none) (hn : names ≠ [])
    (h : t.get? (k ++ names) = some e) : t.ReachesAt (under dir names) (k ++ names) := by
  induction names using List.reverseRecOn generalizing e with
  | nil => exact absurd rfl hn
  | append_singleton ms m ih =>
    obtain ⟨hnames, hdir, -⟩ := directory_of_get?_append h hn
    rw [List.dropLast_concat] at hdir
    have hms : t.resolve true (under dir ms) = .ok (.at (k ++ ms) .directory) := by
      by_cases h0 : ms = []
      · rw [h0, List.append_nil]
        exact hd
      · rw [(ih h0 hdir).resolve, spot, hdir]
    exact ⟨under dir ms, k ++ ms, m, under_append_singleton dir ms m, (List.append_assoc ..).symm,
      hnames m (by simp), hms, hno _⟩

/-- Whether a path is that of a name joined to the path of a directory. -/
def Reaches (t : FileTree) (p : Path) : Prop :=
  ∃ q n, p = q.join ⟨n⟩ ∧ isName n = true ∧ t.isDirectory q = true

theorem Reaches.reachesAt (ht : t.LinkFree) (h : t.Reaches p) : t.ReachesAt p p.place := by
  obtain ⟨q, n, rfl, hn, hq⟩ := h
  exact ⟨q, q.place, n, rfl, Path.place_join hn q, hn, (isDirectory_iff_resolve ht true).1 hq,
    by rw [ht.linkAt?]⟩

theorem ReachesAt.reaches (h : t.ReachesAt p l) : t.Reaches p := by
  obtain ⟨q, k, n, hp, -, hn, hq, -⟩ := h
  exact ⟨q, n, hp, hn, isDirectory_iff.2 ⟨k, hq⟩⟩

theorem Reaches.resolve (ht : t.LinkFree) (h : t.Reaches p) (follow : Bool) :
    t.resolve follow p = .ok (t.spot p.place) :=
  (h.reachesAt ht).resolve follow

section LinkFree

variable (ht : t.LinkFree) (hd : t.isDirectory dir = true)

include ht hd

/-- The path of what is below a directory reaches it. -/
theorem reaches_under {e : Entry} (hn : names ≠ []) (h : t.get? (dir.place ++ names) = some e) :
    t.Reaches (under dir names) :=
  (reachesAt_under ((isDirectory_iff_resolve ht true).1 hd) (fun _ => by rw [ht.linkAt?]) hn
    h).reaches

theorem isDirectory_under (h : t.get? (dir.place ++ names) = some .directory) :
    t.isDirectory (under dir names) = true := by
  by_cases hn : names = []
  · rw [hn]
    exact hd
  · have hnames := (directory_of_get?_append h hn).1
    rw [isDirectory_iff, (reaches_under ht hd hn h).resolve ht, place_under hnames, spot, h]
    exact ⟨_, rfl⟩

end LinkFree

theorem ReachesAt.readFile (h : t.ReachesAt p l) (hc : t.fileAt? l = some c) :
    t.readFile p = .ok c := by
  rw [fileAt?_eq_some_iff] at hc
  rw [FileTree.readFile, lookup, h.resolve, spot, hc]

theorem readFile_reaches (ht : t.LinkFree) (h : t.Reaches p) (hc : t.fileAt? p.place = some c) :
    t.readFile p = .ok c :=
  (h.reachesAt ht).readFile hc

/-! ### Scanning -/

theorem files_eq (hd : t.resolve false dir = .ok (.at k .directory)) : t.files dir =
    (t.below k).filterMap fun e =>
      if e.2 = .directory then none else some (under dir e.1) := by
  rw [files, lookup, hd]

/-- What a walk meets: all but the directories. -/
theorem mem_files_iff (hd : t.resolve false dir = .ok (.at k .directory)) : p ∈ t.files dir ↔
    ∃ names e, names ≠ [] ∧ t.get? (k ++ names) = some e ∧ e ≠ .directory ∧
      p = under dir names := by
  simp only [files_eq hd, List.mem_filterMap, Prod.exists, mem_below, Option.ite_none_left_eq_some,
    Option.some.injEq]
  constructor
  · rintro ⟨names, e, ⟨hn, he⟩, hne, rfl⟩
    exact ⟨names, e, hn, he, hne, rfl⟩
  · rintro ⟨names, e, hn, he, hne, rfl⟩
    exact ⟨names, e, ⟨hn, he⟩, hne, rfl⟩

/-- What a walk meets where there are no links. -/
theorem mem_files (hd : t.resolve false dir = .ok (.at k .directory))
    (hno : ∀ names, t.linkAt? (k ++ names) = none) : p ∈ t.files dir ↔
      ∃ names c, names ≠ [] ∧ t.fileAt? (k ++ names) = some c ∧ p = under dir names := by
  simp only [mem_files_iff hd, fileAt?_eq_some_iff]
  constructor
  · rintro ⟨names, e, hn, he, hne, rfl⟩
    cases e with
    | directory => exact absurd rfl hne
    | file c => exact ⟨names, c, hn, he, rfl⟩
    | link target =>
      have := hno names
      rw [linkAt?_eq_some_iff.2 he] at this
      cases this
  · rintro ⟨names, c, hn, he, rfl⟩
    exact ⟨names, .file c, hn, he, by simp, rfl⟩

/-- Whether there is a file at a location that holds a job set. -/
def Loads (t : FileTree) (l : Location) (s : JobSet) : Prop :=
  ∃ c, t.fileAt? l = some c ∧ JobSet.ofContent c = .ok s

theorem ReachesAt.load_iff (h : t.ReachesAt p l) (hc : t.fileAt? l = some c) :
    (t.load p).toOption = some s ↔ t.Loads l s := by
  rw [load, h.readFile hc]
  constructor
  · intro hs
    refine ⟨c, hc, ?_⟩
    cases hl : JobSet.ofContent c with
    | error f => simp [hl, Except.mapError, Except.toOption] at hs
    | ok s' => simpa [hl, Except.mapError, Except.toOption] using hs
  · rintro ⟨c', hc', hs⟩
    rw [hc, Option.some.injEq] at hc'
    subst hc'
    simp [hs, Except.mapError, Except.toOption]

/-- What a scan hands over where there are no links: the job files below the directory that hold job
sets. -/
theorem mem_loaded_of_resolve (hd : t.resolve false dir = .ok (.at k .directory))
    (hno : ∀ names, t.linkAt? (k ++ names) = none) :
    (i, s) ∈ t.loaded dir ↔ ∃ names, names ≠ [] ∧ t.Loads (k ++ names) s ∧
      Identity.ofJobFile? (under dir names) = some i := by
  simp only [loaded, identities, List.mem_filterMap, mem_files hd hno, Option.map_eq_some_iff,
    Prod.mk.injEq]
  have hload : ∀ {names c}, names ≠ [] → t.fileAt? (k ++ names) = some c →
      ((t.load (under dir names)).toOption = some s ↔ t.Loads (k ++ names) s) := by
    intro names c hn hc
    have hd' : t.resolve true dir = .ok (.at k .directory) :=
      (KeepsWays.refl t).resolve hd (by simp)
    exact (reachesAt_under hd' hno hn (fileAt?_eq_some_iff.1 hc)).load_iff hc
  constructor
  · rintro ⟨j, ⟨p, ⟨names, c, hn, hc, rfl⟩, hj⟩, s', hs, rfl, rfl⟩
    rw [(Identity.file_of_ofJobFile? hj).1, hload hn hc] at hs
    exact ⟨names, hn, hs, hj⟩
  · rintro ⟨names, hn, hs, hi⟩
    obtain ⟨c, hc, -⟩ := id hs
    refine ⟨i, ⟨under dir names, ⟨names, c, hn, hc, rfl⟩, hi⟩, s, ?_, rfl, rfl⟩
    rwa [(Identity.file_of_ofJobFile? hi).1, hload hn hc]

/-- What a scan hands over: the job files below the directory that hold job sets. -/
theorem mem_loaded (ht : t.LinkFree) (hd : t.isDirectory dir = true) :
    (i, s) ∈ t.loaded dir ↔ ∃ names, names ≠ [] ∧ t.Loads (dir.place ++ names) s ∧
      Identity.ofJobFile? (under dir names) = some i :=
  mem_loaded_of_resolve ((isDirectory_iff_resolve ht false).1 hd) fun _ => by rw [ht.linkAt?]

/-- A walk from a link stops there, and a link to a directory is no job file. -/
theorem loaded_eq_nil_of_link {j : Location} {target : Path}
    (hd : t.resolve true dir = .ok (.at k .directory))
    (hl : t.resolve false dir = .ok (.at j (.link target))) : t.loaded dir = [] := by
  have hfiles : t.files dir = [dir] := by
    rw [files, lookup, hl]
  have hread : t.readFile dir = .error .isDirectory := by
    rw [readFile, lookup, hd]
  refine List.filterMap_eq_nil_iff.2 fun i hi => ?_
  rw [identities, hfiles, List.mem_filterMap] at hi
  obtain ⟨p, hp, hi⟩ := hi
  rw [(Identity.file_of_ofJobFile? hi).1, List.mem_singleton.1 hp, load, hread]
  rfl

/-! ### The order of a scan -/

theorem components_under (hn : Named names) (p : Path) :
    (under p names).components = p.components ++ names.map .name := by
  induction names using List.reverseRecOn with
  | nil => simp
  | append_singleton names n ih =>
    rw [under_append_singleton, Path.components_join (hn n (by simp)),
      ih fun m hm => hn m (List.mem_append_left _ hm), List.map_append, List.append_assoc]
    rfl

theorem sortKey_under (hn : Named names) (p : Path) :
    (under p names).sortKey = p.sortKey ++ names.map (3 :: ·) := by
  rw [Path.sortKey, components_under hn, List.map_append, List.map_map, ← Path.sortKey]
  rfl

/-- The identity of an entry, if a walk from `root` visits it. -/
def identityOf? (root : Path) (c : Location × Entry) : Option Identity :=
  if c.2 = .directory then none else Identity.ofJobFile? (under root c.1)

theorem identities_eq {e : Entry} (h : t.lookup false dir = .ok (l, e)) :
    t.identities dir = (t.inside l).filterMap (identityOf? dir) := by
  have hget := (leads_of_lookup h).2
  by_cases hd : e = .directory
  · subst hd
    rw [identities, files_eq (resolve_of_lookup h), List.filterMap_filterMap, inside, hget]
    refine (List.filterMap_congr fun c _ => ?_).trans (List.filterMap_cons_none rfl).symm
    rw [identityOf?]
    split <;> rfl
  · have hfiles : t.files dir = [dir] := by
      rw [files, h]
      cases e with
      | directory => exact absurd rfl hd
      | file c => rfl
      | link target => rfl
    have hself : identityOf? dir ([], e) = Identity.ofJobFile? dir := if_neg hd
    rw [identities, hfiles, inside, hget, below_eq_nil hget hd, List.append_nil, Option.map_some,
      Option.toList_some, List.filterMap_cons, List.filterMap_cons, hself]
    rfl

theorem identities_eq_nil {r : Refusal} (h : t.lookup false dir = .error r) :
    t.identities dir = [] := by
  rw [identities, files, h]
  rfl

/-- A walk visits the job files in the order of their paths. -/
theorem identities_increasing (t : FileTree) (root : Path) :
    (t.identities root).Pairwise fun i j => compare i.file.sortKey j.file.sortKey = .lt := by
  cases h : t.lookup false root with
  | error r =>
    rw [identities_eq_nil h]
    exact .nil
  | ok spot =>
    obtain ⟨l, e⟩ := spot
    rw [identities_eq h, List.pairwise_filterMap]
    refine (inside_increasing t l).imp_of_mem fun {a b} ha hb hab i hi j hj => ?_
    simp only [identityOf?, Option.ite_none_left_eq_some] at hi hj
    rw [(Identity.file_of_ofJobFile? hi.2).1, (Identity.file_of_ofJobFile? hj.2).1,
      sortKey_under (mem_inside.1 ha).named, sortKey_under (mem_inside.1 hb).named,
      compare_append_left, compare_map_cons, hab]

/-- A walk visits each job file once. -/
theorem nodup_identities (t : FileTree) (root : Path) : (t.identities root).Nodup := by
  refine (t.identities_increasing root).imp fun {i j} hij => ?_
  rintro rfl
  simp at hij

/-- What a scan hands over of a file, if the file can be loaded. -/
def loaded? (t : FileTree) (i : Identity) : Option (Identity × JobSet) :=
  ((t.load i.file).toOption).map (i, ·)

theorem loaded_eq (t : FileTree) (root : Path) :
    t.loaded root = (t.identities root).filterMap t.loaded? := by
  unfold loaded
  rfl

/-- A scan hands over the files in the order of their paths. -/
theorem loaded_increasing (t : FileTree) (root : Path) :
    (t.loaded root).Pairwise fun a b => compare a.1.file.sortKey b.1.file.sortKey = .lt := by
  rw [loaded_eq]
  refine (t.identities_increasing root).filterMap _ fun i j hij a ha b hb => ?_
  simp only [loaded?, Option.map_eq_some_iff] at ha hb
  obtain ⟨-, -, rfl⟩ := ha
  obtain ⟨-, -, rfl⟩ := hb
  exact hij

/-- A scan hands over each job file once. -/
theorem nodup_loaded (t : FileTree) (root : Path) : (t.loaded root).Nodup := by
  refine (t.loaded_increasing root).imp fun {a b} hab => ?_
  rintro rfl
  simp at hab

/-- Any order of what is loaded is the one of some scan. -/
theorem exists_deliver {t : FileTree} {root : Path} {order : List (Identity × JobSet)}
    (h : order.Perm (t.loaded root)) : ∃ scan : Scanner, scan.deliver t root = order := by
  classical
  refine ⟨⟨fun t' root' => if t' = t ∧ root' = root then order else t'.loaded root',
    fun t' root' => ?_⟩, if_pos ⟨rfl, rfl⟩⟩
  split
  · rename_i heq
    rw [heq.1, heq.2]
    exact h
  · exact .refl _

end FileTree

end JobConfig
