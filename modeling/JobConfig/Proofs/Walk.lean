import JobConfig.Proofs.Scan
import Mathlib.Data.List.Basic

/-!
# The walk, directory by directory

A walk lists the entries of a directory by name, goes into those that are directories, and visits
the others if their paths are those of job files. A visit that fails ends the walk of its directory,
and so of all directories around it. What this comes to is the list of the job files below the
directory, visited one after the other.
-/

namespace JobConfig

/-- The identities that were visited, and how the visits have ended. -/
abbrev Visits := List Identity × Except Failure Unit

/-- Visits and then others, unless the first have ended in failure. -/
def Visits.andThen : Visits → Visits → Visits
  | (is, .error e), _ => (is, .error e)
  | (is, .ok ()), (js, r) => (is ++ js, r)

/-- The visits for each element, up to those that end in failure. -/
def visitEach {α : Type} (g : α → Visits) : List α → Visits
  | [] => ([], .ok ())
  | a :: as => (g a).andThen (visitEach g as)

/-- Visit what has the path, if it is a job file. -/
def visitFile (f : Identity → Except Failure Unit) (p : Path) : Visits :=
  match Identity.ofJobFile? p with
  | some i => ([i], f i)
  | none => ([], .ok ())

section

variable {f : Identity → Except Failure Unit}

theorem visit_append (is js : List Identity) :
    visit f (is ++ js) = Visits.andThen (visit f is) (visit f js) := by
  induction is with
  | nil => rfl
  | cons i is ih =>
    rw [List.cons_append, visit, visit]
    cases hi : f i with
    | error e => rfl
    | ok _ =>
      rw [ih]
      rcases visit f is with ⟨ks, _ | _⟩ <;> rfl

theorem visitEach_eq_visit {α : Type} {g : α → Visits} {identities : α → List Identity}
    {as : List α} (h : ∀ a ∈ as, g a = visit f (identities a)) :
    visitEach g as = visit f (as.flatMap identities) := by
  induction as with
  | nil => rfl
  | cons a as ih =>
    obtain ⟨ha, has⟩ := List.forall_mem_cons.1 h
    rw [visitEach, List.flatMap_cons, visit_append, ← ha, ih has]

theorem visitEach_attach {α : Type} {as : List α} {g : { a // a ∈ as } → Visits}
    {identities : α → List Identity} (h : ∀ a, g a = visit f (identities a.1)) :
    visitEach g as.attach = visit f (as.flatMap identities) := by
  have hflat : as.attach.flatMap (fun a => identities a.1) = as.flatMap identities := by
    rw [← List.flatMap_map, List.attach_map_subtype_val]
  rw [visitEach_eq_visit fun a _ => h a, hflat]

theorem visitFile_eq_visit (p : Path) :
    visitFile f p = visit f (Identity.ofJobFile? p).toList := by
  rw [visitFile]
  cases Identity.ofJobFile? p with
  | none => rfl
  | some i =>
    show ([i], f i) = visit f [i]
    rw [visit]
    cases f i <;> rfl

/-- Either no visit fails, or the visits end with the first one that does. -/
theorem visit_cases (f : Identity → Except Failure Unit) (is : List Identity) :
    ((∀ i ∈ is, f i = .ok ()) ∧ visit f is = (is, .ok ())) ∨
      ∃ before i after e, is = before ++ i :: after ∧ (∀ j ∈ before, f j = .ok ()) ∧
        f i = .error e ∧ visit f is = (before ++ [i], .error e) := by
  induction is with
  | nil => exact .inl ⟨by simp, rfl⟩
  | cons i is ih =>
    cases hi : f i with
    | error e => exact .inr ⟨[], i, is, e, rfl, by simp, hi, by rw [visit, hi]; rfl⟩
    | ok _ =>
      rcases ih with ⟨hall, hv⟩ | ⟨before, j, after, e, rfl, hall, hj, hv⟩
      · exact .inl ⟨List.forall_mem_cons.2 ⟨hi, hall⟩, by rw [visit, hi, hv]⟩
      · exact .inr ⟨i :: before, j, after, e, rfl, List.forall_mem_cons.2 ⟨hi, hall⟩, hj, by
          rw [visit, hi, hv]
          rfl⟩

end

namespace FileTree

variable {t : FileTree} {l : Location} {n : Bytes} {e : Entry}

/-- The entries of a directory, in the order of their names. -/
def entriesOf (t : FileTree) (l : Location) : List (Bytes × Entry) :=
  (t.below l).filterMap fun e =>
    match e.1 with
    | [n] => some (n, e.2)
    | _ => none

theorem mem_entriesOf : (n, e) ∈ t.entriesOf l ↔ t.get? (l ++ [n]) = some e := by
  rw [entriesOf, List.mem_filterMap]
  constructor
  · rintro ⟨⟨names, e'⟩, hmem, h⟩
    dsimp only at h
    split at h
    · cases h
      exact (mem_below.1 hmem).2
    · cases h
  · intro h
    exact ⟨([n], e), mem_below.2 ⟨by simp, h⟩, rfl⟩

theorem entriesOf_increasing (t : FileTree) (l : Location) :
    (t.entriesOf l).Pairwise fun a b => compare a.1 b.1 = .lt := by
  refine (below_increasing t l).filterMap _ fun a b hab a' ha b' hb => ?_
  split at ha
  · rename_i n hn
    split at hb
    · rename_i m hm
      cases ha
      cases hb
      rw [hn, hm, List.compare_cons_cons] at hab
      simpa using hab
    · cases hb
  · cases ha

/-- An entry of a directory and what is below it, as what is below the directory. -/
def throughEntry (t : FileTree) (l : Location) (c : Bytes × Entry) : List (Location × Entry) :=
  ([c.1], c.2) :: (t.below (l ++ [c.1])).map fun e => (c.1 :: e.1, e.2)

theorem mem_throughEntry {c : Bytes × Entry} {names : Location}
    (hc : t.get? (l ++ [c.1]) = some c.2) :
    (names, e) ∈ t.throughEntry l c ↔
      ∃ rest, names = c.1 :: rest ∧ t.get? (l ++ names) = some e := by
  rw [throughEntry, List.mem_cons, List.mem_map]
  constructor
  · rintro (h | ⟨⟨rest, e'⟩, hmem, h⟩)
    · cases h
      exact ⟨[], rfl, hc⟩
    · cases h
      refine ⟨rest, rfl, ?_⟩
      rw [← (mem_below.1 hmem).2, List.append_assoc]
      rfl
  · rintro ⟨rest, rfl, h⟩
    by_cases hrest : rest = []
    · subst hrest
      rw [hc] at h
      cases h
      exact .inl rfl
    · refine .inr ⟨(rest, e), mem_below.2 ⟨hrest, ?_⟩, rfl⟩
      rw [← h, List.append_assoc]
      rfl

/-- What is below a directory is what is found through its entries, one after the other. -/
theorem below_eq_flatMap (t : FileTree) (l : Location) :
    t.below l = (t.entriesOf l).flatMap (t.throughEntry l) := by
  refine KeyMap.eq_of_increasing (below_increasing t l) ?_ ?_
  · refine List.pairwise_flatMap.2 ⟨fun c _ => ?_, ?_⟩
    · refine List.pairwise_cons.2 ⟨fun e he => ?_, List.pairwise_map.2 ?_⟩
      · obtain ⟨⟨names, e'⟩, hmem, rfl⟩ := List.mem_map.1 he
        obtain ⟨m, rest, rfl⟩ := List.exists_cons_of_ne_nil (mem_below.1 hmem).1
        simp [List.compare_cons_cons]
      · refine (below_increasing t _).imp fun {a b} hab => ?_
        rw [List.compare_cons_cons, hab]
        simp
    · refine (entriesOf_increasing t l).imp_of_mem fun {c d} hc hd hcd a ha b hb => ?_
      obtain ⟨_, ha, -⟩ := (mem_throughEntry (mem_entriesOf.1 hc)).1 ha
      obtain ⟨_, hb, -⟩ := (mem_throughEntry (mem_entriesOf.1 hd)).1 hb
      rw [ha, hb, List.compare_cons_cons, hcd]
      rfl
  · rintro ⟨names, e⟩
    rw [mem_below, List.mem_flatMap]
    constructor
    · rintro ⟨hne, h⟩
      obtain ⟨n, rest, rfl⟩ := List.exists_cons_of_ne_nil hne
      obtain ⟨c, hc⟩ : ∃ c, t.get? (l ++ [n]) = some c := by
        by_cases hrest : rest = []
        · exact ⟨e, hrest ▸ h⟩
        · rw [List.append_cons] at h
          exact ⟨_, (directory_of_get?_append h hrest).2.2⟩
      exact ⟨(n, c), mem_entriesOf.2 hc, (mem_throughEntry hc).2 ⟨rest, rfl, h⟩⟩
    · rintro ⟨c, hc, hmem⟩
      obtain ⟨rest, rfl, h⟩ := (mem_throughEntry (mem_entriesOf.1 hc)).1 hmem
      exact ⟨by simp, h⟩

theorem length_below_lt (h : (n, e) ∈ t.entriesOf l) :
    (t.below (l ++ [n])).length < (t.below l).length := by
  have hsub : (t.throughEntry l (n, e)).Sublist (t.below l) := by
    rw [below_eq_flatMap, List.flatMap]
    exact List.sublist_flatten_of_mem (List.mem_map_of_mem h)
  simpa [throughEntry, Nat.succ_le_iff] using hsub.length_le

/-- The walk through the directory at a location that has the path `dir`. -/
def walkDirectory (t : FileTree) (f : Identity → Except Failure Unit) (l : Location) (dir : Path) :
    Visits :=
  visitEach (fun c =>
    match c.1.2 with
    | .directory => t.walkDirectory f (l ++ [c.1.1]) (dir.join ⟨c.1.1⟩)
    | _ => visitFile f (dir.join ⟨c.1.1⟩)) (t.entriesOf l).attach
termination_by (t.below l).length
decreasing_by exact length_below_lt c.2

/-- The walk from a path, which need not be that of a directory. -/
def walkFrom (t : FileTree) (f : Identity → Except Failure Unit) (root : Path) : Visits :=
  match t.lookup false root with
  | .ok (l, .directory) => t.walkDirectory f l root
  | .ok _ => visitFile f root
  | .error _ => ([], .ok ())

/-- The identities of the job files below a directory that has the path `dir`. -/
def identitiesBelow (t : FileTree) (l : Location) (dir : Path) : List Identity :=
  (t.below l).filterMap fun e =>
    if e.2 = .directory then none else Identity.ofJobFile? (under dir e.1)

/-- The identities that are found through an entry of a directory. -/
theorem filterMap_throughEntry {c : Bytes × Entry} (dir : Path)
    (hc : t.get? (l ++ [c.1]) = some c.2) :
    ((t.throughEntry l c).filterMap fun e =>
      if e.2 = .directory then none else Identity.ofJobFile? (under dir e.1)) =
      if c.2 = .directory then t.identitiesBelow (l ++ [c.1]) (dir.join ⟨c.1⟩)
      else (Identity.ofJobFile? (dir.join ⟨c.1⟩)).toList := by
  rw [throughEntry, List.filterMap_cons, List.filterMap_map]
  by_cases hd : c.2 = .directory
  · rw [if_pos hd, if_pos hd]
    rfl
  · rw [if_neg hd, if_neg hd, below_eq_nil hc hd]
    cases h : Identity.ofJobFile? (dir.join ⟨c.1⟩) <;> simp [under, h]

theorem identitiesBelow_eq_flatMap (t : FileTree) (l : Location) (dir : Path) :
    t.identitiesBelow l dir = (t.entriesOf l).flatMap fun c =>
      if c.2 = .directory then t.identitiesBelow (l ++ [c.1]) (dir.join ⟨c.1⟩)
      else (Identity.ofJobFile? (dir.join ⟨c.1⟩)).toList := by
  rw [identitiesBelow, below_eq_flatMap, List.filterMap_flatMap]
  exact List.flatMap_congr fun c hc => filterMap_throughEntry dir (mem_entriesOf.1 hc)

/-- The walk through a directory visits the job files below it one after the other. -/
theorem walkDirectory_eq_visit (t : FileTree) (f : Identity → Except Failure Unit) (l : Location)
    (dir : Path) : t.walkDirectory f l dir = visit f (t.identitiesBelow l dir) := by
  induction l, dir using walkDirectory.induct t with
  | case1 l dir ih =>
    rw [walkDirectory, identitiesBelow_eq_flatMap]
    refine visitEach_attach fun c => ?_
    obtain ⟨⟨n, e⟩, hc⟩ := c
    cases e with
    | directory => exact ih ⟨(n, .directory), hc⟩
    | file content => exact visitFile_eq_visit _
    | link target => exact visitFile_eq_visit _

/-- A walk visits the job files that it meets one after the other. -/
theorem walkFrom_eq_visit (t : FileTree) (f : Identity → Except Failure Unit) (root : Path) :
    t.walkFrom f root = visit f (t.identities root) := by
  have hone : visitFile f root = visit f ([root].filterMap Identity.ofJobFile?) := by
    rw [visitFile_eq_visit, List.filterMap_cons]
    cases Identity.ofJobFile? root <;> rfl
  rw [walkFrom, identities, files]
  cases hr : t.lookup false root with
  | error r => rfl
  | ok spot =>
    obtain ⟨l, e⟩ := spot
    cases e with
    | directory =>
      dsimp only
      rw [walkDirectory_eq_visit, identitiesBelow, List.filterMap_filterMap]
      congr 1
      refine List.filterMap_congr fun e _ => ?_
      by_cases hd : e.2 = .directory <;> simp [hd]
    | file content => exact hone
    | link target => exact hone

end FileTree

end JobConfig
