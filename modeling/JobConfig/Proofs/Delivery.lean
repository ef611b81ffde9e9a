import JobConfig.Proofs.Namesakes
import JobConfig.Proofs.Partition
import Mathlib.Algebra.GroupWithZero.Nat

/-!
# The order in which files are handed over

A scan may hand over its files in any order. A plan does not depend on it, as long as no shard has
the name of two of the files: each file takes its own shard and no other, and the planned files are
sorted. Neither do the sorted jobs of all files, if no grouping has a name twice.
-/

namespace JobConfig

variable {jobDir : Path} {org repo : String} {generated : JobSet} {c : Considered}
  {shards : Shards} {loaded loaded' : List (Identity × JobSet)}

/-! ### Plans -/

/-- Files whose names are distinct do not share a shard. -/
theorem oneTaker_of_names
    (h : loaded.Pairwise fun a b => shardName a.1.file ≠ shardName b.1.file) :
    OneTaker shards loaded :=
  h.imp fun hne heq => absurd heq hne

/-- The plan is the same in whatever order the files are handed over, if their paths are distinct
and no shard has the name of two of them, as is the case if their names are distinct. -/
theorem planOf_perm
    (hpaths : loaded.Pairwise fun a b => a.1.file.sortKey ≠ b.1.file.sortKey)
    (hnames : OneTaker (generated.shards org repo) loaded) (hp : loaded.Perm loaded') :
    planOf jobDir org repo generated loaded = planOf jobDir org repo generated loaded' ∧
      ∀ (t : FileTree) (scan : Scanner), (t.found (repoDir jobDir org repo) scan).Perm loaded →
        t.plan jobDir org repo generated scan = planOf jobDir org repo generated loaded' := by
  have hsame : ∀ {found : List (Identity × JobSet)}, loaded.Perm found →
      planOf jobDir org repo generated found = planOf jobDir org repo generated loaded :=
    fun h => planOf_congr hpaths h (hnames.sameReceivers h _)
  refine ⟨(hsame hp).symm, fun t scan hfound => ?_⟩
  rw [FileTree.plan, hsame hfound.symm, hsame hp]

/-- The files of a small tree, in the order of a walk. -/
def namesakeFound : List (Identity × JobSet) :=
  FileTree.namesakeTree.found (repoDir FileTree.smallDir "o" "r")

set_option maxRecDepth 100000 in
/-- Two files are handed over in the other order, and a third one is new. -/
theorem planOf_perm_namesakeFound :
    namesakeFound.length = 2 ∧ namesakeFound.Perm namesakeFound.reverse ∧
      (namesakeFound.Pairwise fun a b => a.1.file.sortKey ≠ b.1.file.sortKey) ∧
      (namesakeFound.Pairwise fun a b => shardName a.1.file ≠ shardName b.1.file) ∧
      FileTree.namesakeTree.plan FileTree.smallDir "o" "r" FileTree.twoJobs =
        planOf FileTree.smallDir "o" "r" FileTree.twoJobs namesakeFound.reverse := by
  have hp : namesakeFound.Perm namesakeFound.reverse := namesakeFound.reverse_perm.symm
  obtain ⟨hlen, hpaths, hnames⟩ : namesakeFound.length = 2 ∧
      (namesakeFound.Pairwise fun a b => a.1.file.sortKey ≠ b.1.file.sortKey) ∧
      namesakeFound.Pairwise fun a b => shardName a.1.file ≠ shardName b.1.file := by
    decide +kernel
  exact ⟨hlen, hp, hpaths, hnames,
    (planOf_perm hpaths (oneTaker_of_names hnames) hp).2 _ .inOrder (.refl _)⟩

/-! ### All jobs -/

namespace JobSet

variable {J : Type}

theorem groupedCount_of_get? {m : KeyMap String (List J)} {k : String} {js : List J}
    (h : m.get? k = some js) : groupedCount m = js.length + groupedCount (m.erase k) := by
  have hp : m.values.Perm (js :: (m.erase k).values) := (KeyMap.entries_perm_erase h).map Prod.snd
  rw [groupedCount, hp.flatten.length_eq, List.flatten_cons, List.length_append, groupedCount]

theorem groupedCount_insert (m : KeyMap String (List J)) (k : String) (js : List J) :
    groupedCount (m.insert k ((m.get? k).getD [] ++ js)) = groupedCount m + js.length := by
  have hnew : (m.insert k ((m.get? k).getD [] ++ js)).get? k =
      some ((m.get? k).getD [] ++ js) := by
    rw [KeyMap.get?_insert, if_pos rfl]
  rw [groupedCount_of_get? hnew, KeyMap.erase_insert, List.length_append]
  cases h : m.get? k with
  | none =>
    rw [KeyMap.erase_of_get?_eq_none h, Option.getD_none, List.length_nil]
    omega
  | some old =>
    rw [groupedCount_of_get? h, Option.getD_some]
    omega

theorem groupedCount_appendGroups (a b : KeyMap String (List J)) :
    groupedCount (appendGroups a b) = groupedCount a + groupedCount b := by
  suffices h : ∀ (es : List (String × List J)) (m : KeyMap String (List J)),
      groupedCount (es.foldl (fun m g => m.insert g.1 ((m.get? g.1).getD [] ++ g.2)) m) =
        groupedCount m + (es.map (·.2)).flatten.length from h _ _
  intro es
  induction es with
  | nil => exact fun m => rfl
  | cons e es ih =>
    intro m
    rw [List.foldl_cons, ih, groupedCount_insert, List.map_cons, List.flatten_cons,
      List.length_append]
    omega

theorem count_append (s t : JobSet) : (s.append t).count = s.count + t.count := by
  simp only [count, append, groupedCount_appendGroups, List.length_append]
  omega

theorem length_sortJobs [JobLike J] (js : List J) : (sortJobs js).length = js.length := by
  rw [sortJobs, List.length_map, (sortBy_perm nameOf js).length_eq]

theorem count_sort (s : JobSet) : s.sort.count = s.count := by
  have h : ∀ {J : Type} [JobLike J] (m : KeyMap String (List J)),
      groupedCount (m.mapValues sortJobs) = groupedCount m := by
    intro J _ m
    simp [groupedCount, KeyMap.values, KeyMap.mapValues, List.length_flatten, Function.comp_def,
      length_sortJobs]
  simp only [count, sort, h, length_sortJobs]

theorem count_joined (loaded : List (Identity × JobSet)) :
    (joined loaded).count = (loaded.map fun e => e.2.count).sum := by
  induction loaded using List.reverseRecOn with
  | nil => rfl
  | append_singleton loaded e ih =>
    rw [joined_concat, count_append, ih, List.map_append, List.sum_append, List.map_singleton,
      List.sum_singleton]

theorem lists_joined (loaded : List (Identity × JobSet)) (g : Grouping) :
    (joined loaded).lists g = loaded.any fun e => e.2.lists g := by
  induction loaded using List.reverseRecOn with
  | nil => cases g <;> rfl
  | append_singleton loaded e ih =>
    rw [joined_concat, lists_append, ih, List.any_append, List.any_cons, List.any_nil,
      Bool.or_false]

/-- What is joined has the jobs of each part, and sorting sorts their specifications. -/
theorem jobs_sort_joined_perm (loaded : List (Identity × JobSet)) (g : Grouping) :
    ((joined loaded).sort.jobs g).Perm
      (loaded.flatMap fun e => (e.2.jobs g).map (modifyJob Job.sortSpec)) := by
  rw [jobs_sort, jobs_joined, sortJobs, ← List.map_flatMap]
  exact (sortBy_perm nameOf _).map _

/-- Where no grouping has a name twice among all files, their jobs are sorted into the same set in
whatever order the files are handed over. It has each job of each file once. -/
theorem sort_joined_perm (hd : ∀ g, DistinctNames (loaded.flatMap fun e => e.2.jobs g))
    (hp : loaded.Perm loaded') :
    (joined loaded).sort = (joined loaded').sort ∧
    (∀ (t : FileTree) (dir : Path) (scan : Scanner), (t.loaded dir).Perm loaded →
      (t.allJobs dir scan).sort = (joined loaded').sort) ∧
    (∀ g, ((joined loaded).sort.jobs g).Perm
      (loaded.flatMap fun e => (e.2.jobs g).map (modifyJob Job.sortSpec))) ∧
    (joined loaded).sort.count = (loaded.map fun e => e.2.count).sum := by
  have hsame : ∀ {found : List (Identity × JobSet)}, loaded.Perm found →
      (joined loaded).sort = (joined found).sort := by
    intro found hp
    apply ext_lists
    · intro g
      rw [lists_sort, lists_sort, lists_joined, lists_joined, hp.any_eq]
    · intro g
      rw [jobs_sort, jobs_sort, jobs_joined, jobs_joined]
      exact sortJobs_congr_perm (hp.flatMap_right _) (hd g)
  refine ⟨hsame hp, fun t dir scan hloaded => ?_, jobs_sort_joined_perm loaded,
    by rw [count_sort, count_joined]⟩
  have hall : t.allJobs dir scan = joined (scan.deliver t dir) := rfl
  rw [hall, ← hsame ((scan.perm t dir).trans hloaded).symm, hsame hp]

/-- A tree with two files that have jobs in one grouping. One of them has a grouping without
jobs. -/
def siblingTree : FileTree :=
  FileTree.smallTree [("o-r-x-presubmits.yaml", "presubmits:\n  o/r:\n  - name: b\n"),
    ("o-r-y-presubmits.yaml", "presubmits:\n  o/r:\n  - name: a\n  o/s: []\n")]

/-- The files of the tree, in the order of a walk. -/
def siblings : List (Identity × JobSet) :=
  siblingTree.loaded FileTree.smallDir

set_option maxRecDepth 100000 in
/-- Handed over in the other order the files are joined to another set, but sorted to the same. -/
theorem sort_joined_perm_siblings :
    (∀ g, DistinctNames (siblings.flatMap fun e => e.2.jobs g)) ∧
      siblings.Perm siblings.reverse ∧ joined siblings ≠ joined siblings.reverse ∧
      (siblingTree.allJobs FileTree.smallDir).sort = (joined siblings.reverse).sort ∧
      (joined siblings).sort.count = 2 := by
  obtain ⟨hdistinct, hne, hsum⟩ : (joined siblings).Distinct ∧
      joined siblings ≠ joined siblings.reverse ∧
      (siblings.map fun e => e.2.count).sum = 2 := by
    decide +kernel
  have hd : ∀ g, DistinctNames (siblings.flatMap fun e => e.2.jobs g) := fun g => by
    rw [← jobs_joined]
    exact hdistinct g
  have hp : siblings.Perm siblings.reverse := siblings.reverse_perm.symm
  obtain ⟨-, hall, -, hcount⟩ := sort_joined_perm hd hp
  exact ⟨hd, hp, hne, hall _ _ .inOrder (.refl _), hcount.trans hsum⟩

end JobSet

end JobConfig
