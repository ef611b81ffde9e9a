import JobConfig.Proofs.Named

/-!
# What merging makes of each name

In a merged list every name occurs once. A generated name goes to the last generated job of it, with
what is kept of the last old one; any other name goes to the last old job of it, unless the name was
considered.
-/

namespace JobConfig

section

variable {J : Type} [JobLike J]

theorem get?_byName (jobs : List J) (n : String) : (byName jobs).get? n = lastNamed n jobs := by
  have hc : ((fun e : String × J => decide (e.1 = n)) ∘ fun j => (nameOf j, j)) =
      fun j => decide (nameOf j = n) := rfl
  rw [byName, KeyMap.get?_ofList, List.filter_map, hc, List.getLast?_map, Option.map_map, lastNamed]
  exact Option.map_id'

theorem contains_byName {jobs : List J} {n : String} :
    (byName jobs).contains n = true ↔ n ∈ jobs.map nameOf := by
  rw [KeyMap.contains, get?_byName, ← Option.ne_none_iff_isSome, ne_eq, lastNamed_eq_none_iff,
    not_not]

/-- A generated job, with what is kept of the old one if there is any. -/
def renew (merge : J → J → J) (old? : Option J) (new : J) : J :=
  (old?.map (merge · new)).getD new

/-- The job of a name in a merged list, if there is one. -/
def mergedJob (merge : J → J → J) (considered : Names) (n : String) (old? new? : Option J) :
    Option J :=
  match new? with
  | some new => some (renew merge old? new)
  | none => if considered.contains n then none else old?

variable {merge : J → J → J} (keepsName : ∀ o j, nameOf (merge o j) = nameOf j)

include keepsName

theorem nameOf_renew (old? : Option J) (new : J) : nameOf (renew merge old? new) = nameOf new := by
  cases old? with
  | none => rfl
  | some o => exact keepsName o new

/-- The jobs of a merged list. -/
theorem mem_mergeJobs {considered : Names} {old new : List J} {j : J} :
    j ∈ mergeJobs merge considered old new ↔
      (∃ k, lastNamed (nameOf j) new = some k ∧ j = renew merge (lastNamed (nameOf j) old) k) ∨
      (lastNamed (nameOf j) new = none ∧ considered.contains (nameOf j) = false ∧
        lastNamed (nameOf j) old = some j) := by
  rw [mergeJobs, List.mem_append]
  refine or_congr ?_ ?_
  · simp only [List.mem_map, Prod.exists, KeyMap.mem_entries_iff, get?_byName]
    constructor
    · rintro ⟨n, k, hk, rfl⟩
      have hn : nameOf (renew merge (lastNamed n old) k) = n :=
        (nameOf_renew keepsName _ k).trans (lastNamed_mem hk).2
      show ∃ l, lastNamed (nameOf (renew merge (lastNamed n old) k)) new = some l ∧
        renew merge (lastNamed n old) k =
          renew merge (lastNamed (nameOf (renew merge (lastNamed n old) k)) old) l
      rw [hn]
      exact ⟨k, hk, rfl⟩
    · rintro ⟨k, hk, hj⟩
      exact ⟨nameOf j, k, hk, hj.symm⟩
  · rw [KeyMap.mem_values_iff]
    constructor
    · rintro ⟨n, hn⟩
      rw [KeyMap.get?_filter, get?_byName, Option.filter_eq_some_iff] at hn
      obtain ⟨hn, hp⟩ := hn
      obtain rfl := (lastNamed_mem hn).2
      simp only [Bool.and_eq_true, Bool.not_eq_true', ← Bool.not_eq_true, contains_byName] at hp
      exact ⟨lastNamed_eq_none_iff.2 hp.1, by simpa using hp.2, hn⟩
    · rintro ⟨hnew, hc, hold⟩
      refine ⟨nameOf j, ?_⟩
      rw [KeyMap.get?_filter, get?_byName, Option.filter_eq_some_iff]
      rw [lastNamed_eq_none_iff, ← contains_byName, Bool.not_eq_true] at hnew
      exact ⟨hold, by simp [hnew, hc]⟩

omit keepsName in
theorem map_nameOf_kept (p : String → J → Bool) (old : List J) :
    ((byName old).filter p).values.map nameOf = ((byName old).filter p).keys := by
  rw [KeyMap.values, List.map_map, KeyMap.keys]
  refine List.map_congr_left fun e he => ?_
  have he' := KeyMap.mem_entries_iff.1 (List.mem_filter.1 he).1
  rw [get?_byName] at he'
  exact (lastNamed_mem he').2

theorem map_nameOf_renewed (old new : List J) :
    ((byName new).entries.map fun e =>
      (((byName old).get? e.1).map (merge · e.2)).getD e.2).map nameOf = (byName new).keys := by
  rw [List.map_map, KeyMap.keys]
  refine List.map_congr_left fun e he => ?_
  have he' := KeyMap.mem_entries_iff.1 he
  rw [get?_byName] at he'
  exact (nameOf_renew keepsName _ e.2).trans (lastNamed_mem he').2

/-- In a merged list every name occurs once. -/
theorem distinctNames_mergeJobs (considered : Names) (old new : List J) :
    DistinctNames (mergeJobs merge considered old new) := by
  rw [DistinctNames, mergeJobs, List.map_append, map_nameOf_renewed keepsName, map_nameOf_kept]
  refine List.nodup_append.2 ⟨KeyMap.nodup_keys _, KeyMap.nodup_keys _, ?_⟩
  rintro n hn m hm rfl
  rw [← KeyMap.get?_isSome_iff] at hn hm
  rw [KeyMap.get?_filter, Option.isSome_iff_exists] at hm
  obtain ⟨j, hj⟩ := hm
  have := (Option.filter_eq_some_iff.1 hj).2
  rw [Bool.and_eq_true, Bool.not_eq_true', KeyMap.contains, hn] at this
  exact absurd this.1 (by simp)

theorem lastNamed_mergeJobs (considered : Names) (old new : List J) (n : String) :
    lastNamed n (mergeJobs merge considered old new) =
      mergedJob merge considered n (lastNamed n old) (lastNamed n new) := by
  have hd := distinctNames_mergeJobs keepsName considered old new
  unfold mergedJob
  cases hnew : lastNamed n new with
  | some k =>
    have hn : nameOf (renew merge (lastNamed n old) k) = n :=
      (nameOf_renew keepsName _ k).trans (lastNamed_mem hnew).2
    refine hd.lastNamed_iff.2 ⟨(mem_mergeJobs keepsName).2 (.inl ⟨k, ?_, ?_⟩), hn⟩
    · rw [hn, hnew]
    · rw [hn]
  | none =>
    by_cases hc : considered.contains n
    · simp only [hc, if_true]
      rw [lastNamed_eq_none_iff]
      intro hn
      obtain ⟨j, hj, rfl⟩ := List.mem_map.1 hn
      rcases (mem_mergeJobs keepsName).1 hj with ⟨k, hk, -⟩ | ⟨-, hc', -⟩
      · rw [hnew] at hk
        contradiction
      · rw [hc] at hc'
        contradiction
    · simp only [hc]
      cases hold : lastNamed n old with
      | some o =>
        obtain rfl := (lastNamed_mem hold).2
        exact hd.lastNamed_iff.2
          ⟨(mem_mergeJobs keepsName).2 (.inr ⟨hnew, by simpa using hc, hold⟩), rfl⟩
      | none =>
        simp only [Bool.false_eq_true, if_false]
        rw [lastNamed_eq_none_iff]
        intro hn
        obtain ⟨j, hj, rfl⟩ := List.mem_map.1 hn
        rcases (mem_mergeJobs keepsName).1 hj with ⟨k, hk, -⟩ | ⟨-, -, ho⟩
        · rw [hnew] at hk
          contradiction
        · rw [hold] at ho
          contradiction

end

/-! ### The fields that are kept -/

/-- What the merges of all kinds have in common: name and labels are the generated job's, markers
and specifications of the old job do not matter, and merging again changes nothing. -/
structure IsRenewal {J : Type} [JobLike J] (merge : J → J → J) : Prop where
  name : ∀ o j, nameOf (merge o j) = nameOf j
  labels : ∀ o j, (JobLike.toJob (merge o j)).labels = (JobLike.toJob j).labels
  congrOld : ∀ f : Job → Job,
    (∀ b, (f b).maxConcurrency = b.maxConcurrency ∧ (f b).cluster = b.cluster) →
    ∀ o j, merge (modifyJob f o) j = merge o j
  again : ∀ o j, merge (merge o j) j = merge o j
  self : ∀ j, merge j j = j

/-- A generated job is renewed once. -/
theorem IsRenewal.renew_renew {J : Type} [JobLike J] {merge : J → J → J} (renewal : IsRenewal merge)
    (o? : Option J) (j : J) : renew merge (some (renew merge o? j)) j = renew merge o? j := by
  cases o? with
  | none => exact renewal.self j
  | some o => exact renewal.again o j

theorem keptCluster_self (b : Job) : keptCluster b b = b.cluster := by
  simp [keptCluster]

theorem keptCluster_congr {b c : Job} (h : b.cluster = c.cluster) (d : Job) :
    keptCluster b d = keptCluster c d := by
  rw [keptCluster, keptCluster, h]

theorem keptCluster_again {b c d : Job} (h : b.cluster = keptCluster c d) :
    keptCluster b d = keptCluster c d := by
  rw [keptCluster, h, keptCluster]
  by_cases hc : c.cluster = ""
  · by_cases hd : d.cluster = "" <;> simp [hc, hd]
  · simp [hc]

theorem Presubmit.isRenewal_merge : IsRenewal Presubmit.merge where
  name _ _ := rfl
  labels _ _ := rfl
  congrOld f hf o j := by
    obtain ⟨hm, hc⟩ := hf o.toJob
    show merge { o with toJob := f o.toJob } j = merge o j
    simp only [merge, hm, keptCluster_congr hc]
  again o j := by
    have hc : keptCluster (merge o j).toJob j.toJob = keptCluster o.toJob j.toJob :=
      keptCluster_again rfl
    simp only [merge] at hc ⊢
    rw [hc]
    by_cases hr : j.runIfChanged = "" <;> by_cases hs : j.skipIfOnlyChanged = "" <;> simp [hr, hs]
  self j := by
    simp only [merge, keptCluster_self, ite_self]

theorem Postsubmit.isRenewal_merge : IsRenewal Postsubmit.merge where
  name _ _ := rfl
  labels _ _ := rfl
  congrOld f hf o j := by
    obtain ⟨hm, hc⟩ := hf o.toJob
    show merge { o with toJob := f o.toJob } j = merge o j
    simp only [merge, hm, keptCluster_congr hc]
  again o j := by
    have hc : keptCluster (merge o j).toJob j.toJob = keptCluster o.toJob j.toJob :=
      keptCluster_again rfl
    simp only [merge] at hc ⊢
    rw [hc]
    by_cases hp : j.labels.contains Job.promotionLabel <;> simp [hp]
  self j := by
    simp only [merge, keptCluster_self, ite_self]

theorem Periodic.isRenewal_merge : IsRenewal Periodic.merge where
  name _ _ := rfl
  labels _ _ := rfl
  congrOld f hf o j := by
    obtain ⟨hm, hc⟩ := hf o.toJob
    show merge { o with toJob := f o.toJob } j = merge o j
    simp only [merge, hm, keptCluster_congr hc]
  again o j := by
    have hc : keptCluster (merge o j).toJob j.toJob = keptCluster o.toJob j.toJob :=
      keptCluster_again rfl
    simp only [merge] at hc ⊢
    rw [hc]
  self j := by
    simp only [merge, keptCluster_self]

end JobConfig
