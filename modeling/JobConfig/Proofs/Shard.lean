import JobConfig.Proofs.Grouping
import JobConfig.Proofs.Identity
import JobConfig.Proofs.Label

/-!
# What is in a shard

A part is one job with a label, and goes to the file for the kind and the label. So each shard of a
repository has the name of a job file and lists jobs, all of them in groupings of the repository.
The considered names are those of the jobs in the shards.
-/

namespace JobConfig

open Grouping (ofRepo)

/-! ### Labels -/

theorem slash_not_mem_branchLabel (branches : List String) :
    '/' ∉ (branchLabel branches).toList := by
  cases branches with
  | nil => decide
  | cons b bs => exact Label.slash_not_mem_ofBranch b

theorem Periodic.slash_not_mem_label? {org repo l : String} {j : Periodic}
    (h : j.label? org repo = some l) : '/' ∉ l.toList := by
  rw [label?] at h
  split at h
  · split at h
    · cases h
      exact Label.slash_not_mem_ofBranch _
    · cases h
  · cases h

/-- The label of the file that a job of a grouping belongs to, if it belongs to the repository. -/
def Grouping.label? (org repo : String) : (g : Grouping) → g.Record → Option String
  | presubmits _, j => some (branchLabel j.branches)
  | postsubmits _, j => some (branchLabel j.branches)
  | periodics, j => j.label? org repo

theorem Grouping.slash_not_mem_label? {org repo l : String} {g : Grouping} {j : g.Record}
    (h : g.label? org repo j = some l) : '/' ∉ l.toList := by
  cases g with
  | presubmits _ =>
    obtain rfl := Option.some.inj h
    exact slash_not_mem_branchLabel _
  | postsubmits _ =>
    obtain rfl := Option.some.inj h
    exact slash_not_mem_branchLabel _
  | periodics => exact Periodic.slash_not_mem_label? h

@[simp] theorem Grouping.kind_ofRepo (org repo : String) (kind : Kind) :
    (ofRepo org repo kind).kind = kind := by
  cases kind <;> rfl

/-- The name of the file that a job of a grouping goes to, if it belongs to the repository. -/
def Grouping.fileOf? (org repo : String) (g : Grouping) (j : g.Record) : Option String :=
  if g = ofRepo org repo g.kind then (g.label? org repo j).map (fileName org repo · g.kind)
  else none

/-! ### Parts -/

theorem getD_get?_singleton {J : Type} (k k' : String) (js : List J) :
    ((KeyMap.ofList [(k, js)]).get? k').getD [] = if k' = k then js else [] := by
  rw [KeyMap.get?_ofList]
  by_cases h : k = k'
  · simp [h]
  · simp [h, Ne.symm h]

namespace JobSet

variable {org repo name : String}

/-- The set of one job. -/
def single : (g : Grouping) → g.Record → JobSet
  | .presubmits k, j => { presubmits := KeyMap.ofList [(k, [j])] }
  | .postsubmits k, j => { postsubmits := KeyMap.ofList [(k, [j])] }
  | .periodics, j => { periodics := [j] }

theorem jobs_single_self (g : Grouping) (j : g.Record) : (single g j).jobs g = [j] := by
  cases g with
  | presubmits k => rw [single, jobs, getD_get?_singleton, if_pos rfl]
  | postsubmits k => rw [single, jobs, getD_get?_singleton, if_pos rfl]
  | periodics => rfl

theorem jobs_single_of_ne {g g' : Grouping} (j : g.Record) (h : g' ≠ g) :
    (single g j).jobs g' = [] := by
  cases g with
  | presubmits k =>
    cases g' with
    | presubmits k' => rw [single, jobs, getD_get?_singleton, if_neg fun hk => h (by rw [hk])]
    | postsubmits _ => rfl
    | periodics => rfl
  | postsubmits k =>
    cases g' with
    | presubmits _ => rfl
    | postsubmits k' => rw [single, jobs, getD_get?_singleton, if_neg fun hk => h (by rw [hk])]
    | periodics => rfl
  | periodics =>
    cases g' with
    | presubmits _ => rfl
    | postsubmits _ => rfl
    | periodics => exact absurd rfl h

theorem full_single (g : Grouping) (j : g.Record) : (single g j).Full := by
  have hone : ∀ {J : Type} (k : String) (j : J) (k' : String),
      (KeyMap.ofList [(k, [j])]).get? k' ≠ some [] := by
    intro J k j k'
    rw [KeyMap.get?_ofList]
    by_cases hk : k = k' <;> simp [hk]
  have hno : ∀ {J : Type} (k : String), (∅ : KeyMap String (List J)).get? k ≠ some [] := by simp
  cases g with
  | presubmits k => exact ⟨hone k j, hno⟩
  | postsubmits k => exact ⟨hno, hone k j⟩
  | periodics => exact ⟨hno, hno⟩

/-- The jobs of a grouping that have a label, each as a set of its own with the name of its file. -/
def pieces (org repo : String) (s : JobSet) (g : Grouping) : List (String × JobSet) :=
  (s.jobs g).filterMap fun j =>
    (g.label? org repo j).map fun l => (fileName org repo l g.kind, single g j)

theorem parts_eq (org repo : String) (s : JobSet) : s.parts org repo =
    s.pieces org repo (ofRepo org repo .presubmit) ++
      s.pieces org repo (ofRepo org repo .postsubmit) ++
      s.pieces org repo (ofRepo org repo .periodic) := by
  simp only [parts, pieces, ← List.filterMap_eq_map]
  rfl

/-- A part is one job with a label, and has the name of the file for its kind and the label. -/
theorem exists_of_mem_parts {s part : JobSet} (h : (name, part) ∈ s.parts org repo) :
    ∃ kind j l, (ofRepo org repo kind).label? org repo j = some l ∧
      name = fileName org repo l kind ∧ part = single (ofRepo org repo kind) j := by
  have hpiece : ∀ kind, (name, part) ∈ s.pieces org repo (ofRepo org repo kind) →
      ∃ kind j l, (ofRepo org repo kind).label? org repo j = some l ∧
        name = fileName org repo l kind ∧ part = single (ofRepo org repo kind) j := by
    intro kind hmem
    obtain ⟨j, -, hj⟩ := List.mem_filterMap.1 hmem
    obtain ⟨l, hl, hjl⟩ := Option.map_eq_some_iff.1 hj
    obtain ⟨rfl, rfl⟩ := Prod.mk.inj hjl
    exact ⟨kind, j, l, hl, by rw [Grouping.kind_ofRepo], rfl⟩
  rw [parts_eq, List.mem_append, List.mem_append] at h
  rcases h with (h | h) | h
  · exact hpiece _ h
  · exact hpiece _ h
  · exact hpiece _ h

theorem jobs_pieces_self (s : JobSet) (g : Grouping) (p : String → Bool) :
    ((s.pieces org repo g).filter fun e => p e.1).flatMap (·.2.jobs g) =
      (s.jobs g).filter fun j => ((g.label? org repo j).map (fileName org repo · g.kind)).any p := by
  rw [pieces]
  induction s.jobs g with
  | nil => rfl
  | cons j js ih =>
    rw [List.filterMap_cons, List.filter_cons]
    cases g.label? org repo j with
    | none => simpa using ih
    | some l =>
      rw [Option.map_some, List.filter_cons]
      by_cases hp : p (fileName org repo l g.kind)
      · simp [hp, jobs_single_self, ih]
      · simp [hp, ih]

theorem jobs_pieces_of_ne (s : JobSet) {g g' : Grouping} (h : g' ≠ g) (p : String → Bool) :
    ((s.pieces org repo g).filter fun e => p e.1).flatMap (·.2.jobs g') = [] := by
  refine List.flatMap_eq_nil_iff.2 fun e he => ?_
  obtain ⟨j, -, hj⟩ := List.mem_filterMap.1 (List.mem_filter.1 he).1
  obtain ⟨l, -, rfl⟩ := Option.map_eq_some_iff.1 hj
  exact jobs_single_of_ne j h

/-- The pieces of a kind hold those jobs of a grouping that go to certain files, if the grouping is
of the kind. -/
theorem jobs_pieces (s : JobSet) (kind : Kind) (g : Grouping) (p : String → Bool) :
    ((s.pieces org repo (ofRepo org repo kind)).filter fun e => p e.1).flatMap (·.2.jobs g) =
      if g.kind = kind then (s.jobs g).filter fun j => (g.fileOf? org repo j).any p else [] := by
  by_cases hg : g = ofRepo org repo kind
  · have hkind : g.kind = kind := by rw [hg, Grouping.kind_ofRepo]
    have hfile : ∀ j, g.fileOf? org repo j =
        (g.label? org repo j).map (fileName org repo · g.kind) :=
      fun j => if_pos (by rw [hkind, hg])
    simp only [if_pos hkind, hfile]
    rw [← hg, jobs_pieces_self]
  · rw [jobs_pieces_of_ne s hg]
    split
    · rename_i hkind
      have hfile : ∀ j, g.fileOf? org repo j = none := fun j => if_neg (by rwa [hkind])
      simp [hfile]
    · rfl

/-- The parts of certain names hold the jobs that go to these files. -/
theorem jobs_parts (org repo : String) (s : JobSet) (g : Grouping) (p : String → Bool) :
    ((s.parts org repo).filter fun e => p e.1).flatMap (·.2.jobs g) =
      (s.jobs g).filter fun j => (g.fileOf? org repo j).any p := by
  rw [parts_eq, List.filter_append, List.filter_append, List.flatMap_append, List.flatMap_append,
    jobs_pieces, jobs_pieces, jobs_pieces]
  cases g.kind <;> simp

end JobSet

/-! ### Shards -/

/-- What is known of a shard of a repository. -/
structure IsShard (org repo name : String) (s : JobSet) : Prop where
  isFileName : ∃ label kind, name = fileName org repo label kind ∧ '/' ∉ label.toList
  hasJobs : ∃ g, s.jobs g ≠ []
  isOfRepo : ∀ g, s.jobs g ≠ [] → g = ofRepo org repo g.kind

variable {org repo name : String}

theorem isShard_of_mem_parts {s part : JobSet} (h : (name, part) ∈ s.parts org repo) :
    IsShard org repo name part := by
  obtain ⟨kind, j, l, hl, rfl, rfl⟩ := JobSet.exists_of_mem_parts h
  refine ⟨⟨l, kind, rfl, Grouping.slash_not_mem_label? hl⟩, ⟨ofRepo org repo kind, ?_⟩,
    fun g hg => ?_⟩
  · rw [JobSet.jobs_single_self]
    simp
  · have hof : g = ofRepo org repo kind := by
      by_contra hne
      exact hg (JobSet.jobs_single_of_ne j hne)
    rw [hof, Grouping.kind_ofRepo]

theorem IsShard.append {s t : JobSet} (hs : s = ∅ ∨ IsShard org repo name s)
    (ht : IsShard org repo name t) : IsShard org repo name (s.append t) where
  isFileName := ht.isFileName
  hasJobs := by
    obtain ⟨g, hg⟩ := ht.hasJobs
    exact ⟨g, by simp [JobSet.jobs_append, hg]⟩
  isOfRepo := by
    intro g hg
    by_cases htg : t.jobs g = []
    · rcases hs with rfl | hs
      · simp [JobSet.jobs_append, htg] at hg
      · exact hs.isOfRepo g (by simpa [JobSet.jobs_append, htg] using hg)
    · exact ht.isOfRepo g htg

/-- What holds of each part, and of a part appended to what it holds of, holds of each shard. -/
theorem JobSet.shards_induction {generated : JobSet} {P : String → JobSet → Prop}
    (hpart : ∀ n part, (n, part) ∈ generated.parts org repo → P n part)
    (happend : ∀ n s part, s = ∅ ∨ P n s → P n part → P n (s.append part)) :
    ∀ n s, (generated.shards org repo).get? n = some s → P n s := by
  suffices hfold : ∀ (parts : List (String × JobSet)) (m : Shards),
      (∀ p ∈ parts, P p.1 p.2) → (∀ n s, m.get? n = some s → P n s) →
      ∀ n s, (parts.foldl (fun m p => m.add p.1 p.2) m).get? n = some s → P n s from
    hfold _ ∅ (fun p hp => hpart p.1 p.2 hp) (fun _ _ h => nomatch h)
  intro parts
  induction parts with
  | nil => exact fun m _ hm => hm
  | cons p parts ih =>
    intro m hparts hm
    have hp := hparts p List.mem_cons_self
    refine ih _ (fun q hq => hparts q (List.mem_cons_of_mem _ hq)) fun n s hs => ?_
    simp only [Shards.add, KeyMap.get?_insert] at hs
    split at hs
    · rename_i hn
      subst hn
      obtain rfl := Option.some.inj hs
      refine happend _ _ _ ?_ hp
      cases ho : m.get? p.1 with
      | none => exact .inl rfl
      | some o => exact .inr (hm _ _ ho)
    · exact hm n s hs

/-- The shards of a repository are such. -/
theorem isShard_of_get? {generated s : JobSet}
    (h : (generated.shards org repo).get? name = some s) : IsShard org repo name s :=
  JobSet.shards_induction (fun _ _ => isShard_of_mem_parts)
    (fun _ _ _ hs ht => IsShard.append hs ht) name s h

theorem JobSet.full_of_mem_parts {s part : JobSet} (h : (name, part) ∈ s.parts org repo) :
    part.Full := by
  obtain ⟨kind, j, -, -, -, rfl⟩ := exists_of_mem_parts h
  exact full_single _ j

theorem JobSet.full_of_get?_shards {generated s : JobSet}
    (h : (generated.shards org repo).get? name = some s) : s.Full := by
  refine shards_induction (P := fun _ s => s.Full) (fun _ _ => full_of_mem_parts)
    (fun _ s part hs hpart => ?_) name s h
  rcases hs with rfl | hs
  · exact full_empty.append hpart
  · exact hs.append hpart

/-! ### Considered names -/

theorem contains_addAll (m : Names) (ns : List String) (n : String) :
    (m.addAll ns).contains n = true ↔ m.contains n = true ∨ n ∈ ns := by
  induction ns generalizing m with
  | nil => simp [Names.addAll]
  | cons n' ns ih =>
    have hi : (m.insert n' ()).contains n = true ↔ m.contains n = true ∨ n = n' := by
      rw [KeyMap.contains, KeyMap.contains, KeyMap.get?_insert]
      split <;> simp_all
    rw [show m.addAll (n' :: ns) = Names.addAll (m.insert n' ()) ns from rfl, ih, hi,
      List.mem_cons, or_assoc]

theorem mem_values_flatten {J : Type} [JobLike J] {m : KeyMap String (List J)} {n : String} :
    n ∈ m.values.flatten.map nameOf ↔ ∃ k, n ∈ ((m.get? k).getD []).map nameOf := by
  simp only [List.mem_map, List.mem_flatten, KeyMap.mem_values_iff]
  constructor
  · rintro ⟨j, ⟨js, ⟨k, hk⟩, hj⟩, rfl⟩
    exact ⟨k, j, by rwa [hk], rfl⟩
  · rintro ⟨k, j, hj, rfl⟩
    cases hk : m.get? k with
    | none => simp [hk] at hj
    | some js => exact ⟨j, ⟨js, ⟨k, hk⟩, by rwa [hk] at hj⟩, rfl⟩

theorem contains_names_add (c : Considered) (s : JobSet) (kind : Kind) (n : String) :
    ((c.add s).names kind).contains n = true ↔ (c.names kind).contains n = true ∨
      ∃ g : Grouping, g.kind = kind ∧ n ∈ (s.jobs g).map nameOf := by
  cases kind with
  | presubmit =>
    rw [Considered.names, Considered.add, contains_addAll, mem_values_flatten]
    refine or_congr_right ⟨fun ⟨k, hk⟩ => ⟨.presubmits k, rfl, hk⟩, ?_⟩
    rintro ⟨⟨⟩, hg, hn⟩
    · exact ⟨_, hn⟩
    all_goals cases hg
  | postsubmit =>
    rw [Considered.names, Considered.add, contains_addAll, mem_values_flatten]
    refine or_congr_right ⟨fun ⟨k, hk⟩ => ⟨.postsubmits k, rfl, hk⟩, ?_⟩
    rintro ⟨⟨⟩, hg, hn⟩
    · cases hg
    · exact ⟨_, hn⟩
    · cases hg
  | periodic =>
    rw [Considered.names, Considered.add, contains_addAll]
    refine or_congr_right ⟨fun h => ⟨.periodics, rfl, h⟩, ?_⟩
    rintro ⟨⟨⟩, hg, hn⟩
    · cases hg
    · cases hg
    · exact hn

/-- A name of a kind is considered if it is that of a job of the kind in one of the sets. -/
theorem contains_ofJobSets (ss : List JobSet) (kind : Kind) (n : String) :
    ((Considered.ofJobSets ss).names kind).contains n = true ↔
      ∃ s ∈ ss, ∃ g : Grouping, g.kind = kind ∧ n ∈ (s.jobs g).map nameOf := by
  suffices h : ∀ (ss : List JobSet) (c : Considered),
      ((ss.foldl Considered.add c).names kind).contains n = true ↔
        (c.names kind).contains n = true ∨
          ∃ s ∈ ss, ∃ g : Grouping, g.kind = kind ∧ n ∈ (s.jobs g).map nameOf by
    rw [Considered.ofJobSets, h]
    refine or_iff_right ?_
    cases kind <;> simp [Considered.names, KeyMap.contains]
  intro ss
  induction ss with
  | nil => simp
  | cons s ss ih =>
    intro c
    rw [List.foldl_cons, ih, contains_names_add, or_assoc, List.exists_mem_cons_iff]

end JobConfig
