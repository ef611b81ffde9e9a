import JobConfig.Proofs.Merge
import JobConfig.Shard

/-!
# The groupings of a job set

A job set is a family of lists of jobs: one for each repository and each of two kinds, and one of
periodics. Appending, merging, pruning and sorting act on each of these lists by itself.
-/

namespace JobConfig

/-- Where a job set lists jobs. -/
inductive Grouping where
  | presubmits (repo : String)
  | postsubmits (repo : String)
  | periodics
deriving DecidableEq

namespace Grouping

/-- The kind of the jobs of a grouping. -/
def kind : Grouping → Kind
  | presubmits _ => .presubmit
  | postsubmits _ => .postsubmit
  | periodics => .periodic

/-- The records of the jobs of a grouping. -/
abbrev Record : Grouping → Type
  | presubmits _ => Presubmit
  | postsubmits _ => Postsubmit
  | periodics => Periodic

instance : (g : Grouping) → JobLike g.Record
  | presubmits _ => inferInstanceAs (JobLike Presubmit)
  | postsubmits _ => inferInstanceAs (JobLike Postsubmit)
  | periodics => inferInstanceAs (JobLike Periodic)

/-- What becomes of a generated job of a grouping where there is an old one. -/
def merge : (g : Grouping) → g.Record → g.Record → g.Record
  | presubmits _ => Presubmit.merge
  | postsubmits _ => Postsubmit.merge
  | periodics => Periodic.merge

theorem isRenewal_merge (g : Grouping) : IsRenewal g.merge := by
  cases g with
  | presubmits _ => exact Presubmit.isRenewal_merge
  | postsubmits _ => exact Postsubmit.isRenewal_merge
  | periodics => exact Periodic.isRenewal_merge

/-- The grouping of the jobs that are generated for a repository. -/
def ofRepo (org repo : String) : Kind → Grouping
  | .presubmit => presubmits (repoKey org repo)
  | .postsubmit => postsubmits (repoKey org repo)
  | .periodic => periodics

end Grouping

/-- The considered names of a kind. -/
def Considered.names (c : Considered) : Kind → Names
  | .presubmit => c.presubmits
  | .postsubmit => c.postsubmits
  | .periodic => c.periodics

namespace JobSet

/-- The jobs of a grouping. -/
def jobs (s : JobSet) : (g : Grouping) → List g.Record
  | .presubmits repo => (s.presubmits.get? repo).getD []
  | .postsubmits repo => (s.postsubmits.get? repo).getD []
  | .periodics => s.periodics

/-- Whether a grouping is reconciled when the set is merged into another. -/
def lists (s : JobSet) : Grouping → Bool
  | .presubmits repo => s.presubmits.contains repo
  | .postsubmits repo => s.postsubmits.contains repo
  | .periodics => !s.periodics.isEmpty

/-- Whether every listed grouping has a job. -/
def Full (s : JobSet) : Prop :=
  (∀ repo, s.presubmits.get? repo ≠ some []) ∧ ∀ repo, s.postsubmits.get? repo ≠ some []

end JobSet

/-! ### Maps of lists -/

section

variable {J : Type}

/-- A map into which the entries of another are put one after the other, each together with what is
bound before. -/
theorem get?_foldl_insert {α β : Type} (f : Option α → β → α) (k : String) (new : KeyMap String β)
    (old : KeyMap String α) :
    (new.entries.foldl (fun m e => m.insert e.1 (f (m.get? e.1) e.2)) old).get? k =
      ((new.get? k).map (f (old.get? k))).or (old.get? k) := by
  suffices h : ∀ (es : List (String × β)) (m : KeyMap String α),
      es.Pairwise (fun a b => compare a.1 b.1 = .lt) →
        (es.foldl (fun m e => m.insert e.1 (f (m.get? e.1) e.2)) m).get? k =
          ((KeyMap.find k es).map (f (m.get? k))).or (m.get? k) from h _ _ new.increasing
  intro es
  induction es with
  | nil => intro m _; simp
  | cons e es ih =>
    intro m h
    obtain ⟨he, hes⟩ := List.pairwise_cons.1 h
    rw [List.foldl_cons, ih _ hes, KeyMap.find_cons, KeyMap.get?_insert]
    by_cases hk : k = e.1
    · have hno : KeyMap.find k es = none :=
        KeyMap.find_eq_none_of_lt fun e' he' => hk ▸ he e' he'
      rw [if_pos hk, if_pos hk, hno, hk]
      rfl
    · rw [if_neg hk, if_neg hk]

theorem get?_appendGroups (a b : KeyMap String (List J)) (k : String) :
    (JobSet.appendGroups a b).get? k =
      ((b.get? k).map ((a.get? k).getD [] ++ ·)).or (a.get? k) :=
  get?_foldl_insert (fun o js => o.getD [] ++ js) _ _ _

theorem getD_appendGroups (a b : KeyMap String (List J)) (k : String) :
    ((JobSet.appendGroups a b).get? k).getD [] = (a.get? k).getD [] ++ (b.get? k).getD [] := by
  rw [get?_appendGroups]
  cases b.get? k <;> simp

variable [JobLike J]

theorem get?_mergeGroups (merge : J → J → J) (c : Names) (old new : KeyMap String (List J))
    (k : String) : (mergeGroups merge c old new).get? k =
      if new.contains k then
        some (mergeJobs merge c ((old.get? k).getD []) ((new.get? k).getD []))
      else old.get? k := by
  rw [mergeGroups, get?_foldl_insert fun o js => mergeJobs merge c (o.getD []) js,
    KeyMap.contains]
  cases new.get? k <;> simp

theorem getD_mergeGroups (merge : J → J → J) (c : Names) (old new : KeyMap String (List J))
    (k : String) : ((mergeGroups merge c old new).get? k).getD [] =
      if new.contains k then mergeJobs merge c ((old.get? k).getD []) ((new.get? k).getD [])
      else (old.get? k).getD [] := by
  rw [get?_mergeGroups]
  split <;> rfl

theorem get?_pruneGroups (m : KeyMap String (List J)) (k : String) :
    (pruneGroups m).get? k = ((m.get? k).map pruneJobs).filter fun js => !js.isEmpty := by
  rw [pruneGroups, KeyMap.get?_filter, KeyMap.get?_mapValues]

theorem getD_pruneGroups (m : KeyMap String (List J)) (k : String) :
    ((pruneGroups m).get? k).getD [] = pruneJobs ((m.get? k).getD []) := by
  rw [get?_pruneGroups]
  cases m.get? k with
  | none => rfl
  | some js =>
    rw [Option.map_some, Option.filter_some]
    cases hp : pruneJobs js <;> simp [hp]

theorem getD_mapValues_sortJobs (m : KeyMap String (List J)) (k : String) :
    ((m.mapValues sortJobs).get? k).getD [] = sortJobs ((m.get? k).getD []) := by
  rw [KeyMap.get?_mapValues]
  cases m.get? k <;> rfl

end

/-! ### The operations, list by list -/

namespace JobSet

variable (s t : JobSet) (g : Grouping)

@[simp] theorem jobs_empty : (∅ : JobSet).jobs g = [] := by
  cases g <;> rfl

theorem jobs_append : (s.append t).jobs g = s.jobs g ++ t.jobs g := by
  cases g with
  | presubmits repo => exact getD_appendGroups _ _ _
  | postsubmits repo => exact getD_appendGroups _ _ _
  | periodics => rfl

theorem jobs_prune : s.prune.jobs g = pruneJobs (s.jobs g) := by
  cases g with
  | presubmits repo => exact getD_pruneGroups _ _
  | postsubmits repo => exact getD_pruneGroups _ _
  | periodics => rfl

theorem jobs_sort : s.sort.jobs g = sortJobs (s.jobs g) := by
  cases g with
  | presubmits repo => exact getD_mapValues_sortJobs _ _
  | postsubmits repo => exact getD_mapValues_sortJobs _ _
  | periodics => rfl

theorem jobs_merge (c : Considered) : (s.merge c t).jobs g =
    if t.lists g then mergeJobs g.merge (c.names g.kind) (s.jobs g) (t.jobs g) else s.jobs g := by
  cases g with
  | presubmits repo => exact getD_mergeGroups _ _ _ _ _
  | postsubmits repo => exact getD_mergeGroups _ _ _ _ _
  | periodics =>
    simp only [jobs, merge, lists]
    by_cases h : t.periodics.isEmpty
    · simp [h]
    · simp only [h, Bool.not_false, if_true]
      rfl

theorem jobs_eq_nil_of_lists {s : JobSet} {g : Grouping} (h : s.lists g = false) :
    s.jobs g = [] := by
  cases g with
  | presubmits repo =>
    simp only [lists, KeyMap.contains, Option.isSome_eq_false_iff, Option.isNone_iff_eq_none] at h
    simp [jobs, h]
  | postsubmits repo =>
    simp only [lists, KeyMap.contains, Option.isSome_eq_false_iff, Option.isNone_iff_eq_none] at h
    simp [jobs, h]
  | periodics => simpa [lists, jobs] using h

theorem lists_append : (s.append t).lists g = (s.lists g || t.lists g) := by
  have h : ∀ {J : Type} (a b : KeyMap String (List J)) (k : String),
      (appendGroups a b).contains k = (a.contains k || b.contains k) := by
    intro J a b k
    rw [KeyMap.contains, get?_appendGroups, KeyMap.contains, KeyMap.contains]
    cases b.get? k <;> simp
  cases g with
  | presubmits repo => exact h _ _ _
  | postsubmits repo => exact h _ _ _
  | periodics =>
    rw [Bool.eq_iff_iff]
    simp [lists, append, imp_iff_not_or]

theorem lists_sort : s.sort.lists g = s.lists g := by
  have h : ∀ {J : Type} [JobLike J] (m : KeyMap String (List J)) (k : String),
      (m.mapValues sortJobs).contains k = m.contains k := by
    intro J _ m k
    rw [KeyMap.contains, KeyMap.get?_mapValues, Option.isSome_map, KeyMap.contains]
  cases g with
  | presubmits repo => exact h _ _
  | postsubmits repo => exact h _ _
  | periodics =>
    rw [Bool.eq_iff_iff]
    simp [lists, sort, sortJobs_eq_nil]

variable {s t} in
/-- Sets that list the same groupings and the same jobs are the same. -/
theorem ext_lists (hl : ∀ g, s.lists g = t.lists g) (hj : ∀ g, s.jobs g = t.jobs g) : s = t := by
  have hm : ∀ {J : Type} {m m' : KeyMap String (List J)}, (∀ k, m.contains k = m'.contains k) →
      (∀ k, (m.get? k).getD [] = (m'.get? k).getD []) → m = m' := by
    intro J m m' hc he
    refine KeyMap.ext_get? fun k => ?_
    have hck := hc k
    have hek := he k
    rw [KeyMap.contains, KeyMap.contains] at hck
    cases h1 : m.get? k <;> cases h2 : m'.get? k <;> simp_all
  cases s
  cases t
  rw [JobSet.mk.injEq]
  exact ⟨hm (fun k => hl (.presubmits k)) fun k => hj (.presubmits k),
    hm (fun k => hl (.postsubmits k)) fun k => hj (.postsubmits k), hj .periodics⟩

/-! ### Sets without empty groupings -/

theorem full_empty : (∅ : JobSet).Full := by
  constructor <;> intro repo h <;> exact nomatch (show none = some [] from h)

theorem full_prune : s.prune.Full := by
  have h : ∀ {J : Type} [JobLike J] (m : KeyMap String (List J)) (k : String),
      (pruneGroups m).get? k ≠ some [] := by
    intro J _ m k hk
    rw [get?_pruneGroups, Option.filter_eq_some_iff] at hk
    simp at hk
  exact ⟨h _, h _⟩

variable {s t}

theorem Full.sort (hs : s.Full) : s.sort.Full := by
  have h : ∀ {J : Type} [JobLike J] (m : KeyMap String (List J)), (∀ k, m.get? k ≠ some []) →
      ∀ k, (m.mapValues sortJobs).get? k ≠ some [] := by
    intro J _ m hm k hk
    rw [KeyMap.get?_mapValues, Option.map_eq_some_iff] at hk
    obtain ⟨js, hjs, he⟩ := hk
    rw [sortJobs_eq_nil] at he
    exact hm k (he ▸ hjs)
  exact ⟨h _ hs.1, h _ hs.2⟩

theorem Full.append (hs : s.Full) (ht : t.Full) : (s.append t).Full := by
  have h : ∀ {J : Type} {a b : KeyMap String (List J)}, (∀ k, a.get? k ≠ some []) →
      (∀ k, b.get? k ≠ some []) → ∀ k, (appendGroups a b).get? k ≠ some [] := by
    intro J a b ha hb k
    have hbk := hb k
    rw [get?_appendGroups]
    cases hk : b.get? k with
    | none => simpa using ha k
    | some js => simp_all
  exact ⟨h hs.1 ht.1, h hs.2 ht.2⟩

/-- A set without empty groupings reconciles a grouping if and only if it has jobs there. -/
theorem Full.lists_eq_false_iff (hs : s.Full) {g : Grouping} :
    s.lists g = false ↔ s.jobs g = [] := by
  have h : ∀ {J : Type} {m : KeyMap String (List J)}, (∀ k, m.get? k ≠ some []) → ∀ k,
      (m.get? k).getD [] = [] → m.contains k = false := by
    intro J m hm k hk
    have hmk := hm k
    rw [KeyMap.contains]
    cases hg : m.get? k <;> simp_all
  refine ⟨jobs_eq_nil_of_lists, fun hg => ?_⟩
  cases g with
  | presubmits repo => exact h hs.1 repo hg
  | postsubmits repo => exact h hs.2 repo hg
  | periodics => simpa [lists, jobs] using hg

/-- Sets without empty groupings are the same if they list the same jobs. -/
theorem Full.ext (hs : s.Full) (ht : t.Full) (h : ∀ g, s.jobs g = t.jobs g) : s = t := by
  refine ext_lists (fun g => ?_) h
  rw [Bool.eq_iff_iff, ← Bool.not_eq_false, ← Bool.not_eq_false, hs.lists_eq_false_iff,
    ht.lists_eq_false_iff, h]

/-- A set without empty groupings is empty if it lists no jobs. -/
theorem Full.isEmpty_iff (hs : s.Full) : s.isEmpty = true ↔ ∀ g, s.jobs g = [] := by
  have he : s.isEmpty = true ↔ s = ∅ := by
    cases s with
    | mk pre post per =>
      cases pre
      cases post
      simp only [isEmpty, KeyMap.isEmpty, Bool.and_eq_true, List.isEmpty_iff]
      constructor
      · rintro ⟨⟨rfl, rfl⟩, rfl⟩
        rfl
      · intro h
        cases h
        exact ⟨⟨rfl, rfl⟩, rfl⟩
  rw [he]
  constructor
  · rintro rfl g
    exact jobs_empty g
  · intro h
    exact hs.ext full_empty fun g => by rw [h, jobs_empty]

theorem Full.isEmpty_eq_false (hs : s.Full) {g : Grouping} {j : g.Record} (hj : j ∈ s.jobs g) :
    s.isEmpty = false := by
  rw [← Bool.not_eq_true, hs.isEmpty_iff]
  intro h
  rw [h g] at hj
  cases hj

end JobSet

end JobConfig
