import JobConfig.Proofs.Merged
import JobConfig.Proofs.Reconcile
import Mathlib.Data.List.Perm.Basic

/-!
# Sorting is a canonical form

A job set has lists at five levels whose order is of no account: jobs, volumes, containers, and what
a container is given. Sorting arranges each of them anew, with equal names in the order they had,
and touches nothing else. Where names are distinct, two sets are sorted into the same set if and
only if one is an arrangement of the other.
-/

namespace JobConfig

/-! ### Arrangements -/

/-- A way of arranging lists anew: which lists may become which, where elements have a key and may
be replaced by related ones. -/
abbrev Arrangement :=
  ∀ {α : Type}, (α → String) → (α → α → Prop) → List α → List α → Prop

/-- The elements in any order. -/
def shuffle : Arrangement := fun _ r as bs =>
  ∃ cs, as.Perm cs ∧ List.Forall₂ r cs bs

/-- The elements in ascending order, and in the order that they had where they have the same key. -/
def stableSort : Arrangement := fun {α} key r as bs =>
  (bs.map key).Pairwise (fun k l => compare (Utf8.encode l) (Utf8.encode k) ≠ .lt) ∧
  ∃ cs : List α, as.Perm cs ∧
    (∀ k, cs.filter (fun a => key a = k) = as.filter fun a => key a = k) ∧ List.Forall₂ r cs bs

/-- What a container becomes by arrangements of its lists. The arguments count as one of them only
for the job runner. -/
structure Container.Arranged (R : Arrangement) (c d : Container) : Prop where
  volumeMounts : R VolumeMount.name Eq c.volumeMounts d.volumeMounts
  env : R EnvVar.name Eq c.env d.env
  args : if c.command = ["ci-operator"] then R id Eq c.args d.args else d.args = c.args
  rest : { d with volumeMounts := c.volumeMounts, env := c.env, args := c.args } = c

/-- What a specification becomes by arrangements of its lists and of those of its containers. -/
structure PodSpec.Arranged (R : Arrangement) (s t : PodSpec) : Prop where
  volumes : R Volume.name Eq s.volumes t.volumes
  containers : R Container.name (Container.Arranged R) s.containers t.containers
  rest : { t with volumes := s.volumes, containers := s.containers } = s

/-- What a job becomes by arrangements in its specification. -/
structure Job.Arranged (R : Arrangement) (b c : Job) : Prop where
  spec : Option.Rel (PodSpec.Arranged R) b.spec c.spec
  rest : { c with spec := b.spec } = b

@[inherit_doc Job.Arranged]
structure ArrangedJob (R : Arrangement) {J : Type} [JobLike J] (j k : J) : Prop where
  job : Job.Arranged R (JobLike.toJob j) (JobLike.toJob k)
  rest : JobLike.withJob k (JobLike.toJob j) = j

/-- What a job set becomes by arrangements of its lists and of those in its jobs. -/
def JobSet.Arranged (R : Arrangement) (s t : JobSet) : Prop :=
  ∀ g, Option.Rel (R nameOf (ArrangedJob R)) (s.listed? g) (t.listed? g)

/-- Whether the names in each list of a container are distinct. -/
def Container.Distinct (c : Container) : Prop :=
  (c.volumeMounts.map VolumeMount.name).Nodup ∧ (c.env.map EnvVar.name).Nodup

/-- Whether the names in each list of a specification are distinct. -/
def PodSpec.Distinct (s : PodSpec) : Prop :=
  (s.volumes.map Volume.name).Nodup ∧ (s.containers.map Container.name).Nodup ∧
    ∀ c ∈ s.containers, c.Distinct

@[inherit_doc PodSpec.Distinct]
def Job.Distinct (b : Job) : Prop :=
  ∀ s ∈ b.spec, s.Distinct

instance (c : Container) : Decidable c.Distinct := by
  unfold Container.Distinct
  infer_instance

instance (s : PodSpec) : Decidable s.Distinct := by
  unfold PodSpec.Distinct
  infer_instance

instance (b : Job) : Decidable b.Distinct := by
  unfold Job.Distinct
  infer_instance

/-! ### Sorting is an arrangement -/

section

variable {α β : Type} {key : α → String} {r : α → α → Prop} {as bs : List α}

theorem stableSort_map {f : α → α} (hkey : ∀ a, key (f a) = key a) (hr : ∀ a, r a (f a))
    (as : List α) : stableSort key r as ((sortBy key as).map f) := by
  refine ⟨?_, sortBy key as, (sortBy_perm key as).symm, fun k => filter_key_sortBy key k as, ?_⟩
  · rw [List.map_map, show key ∘ f = key from funext hkey, List.pairwise_map]
    simp only [Utf8.compare_encode]
    exact ascending_sortBy key as
  · rw [List.forall₂_map_right_iff]
    exact List.forall₂_same.2 fun a _ => hr a

theorem stableSort_sortBy (key : α → String) (as : List α) :
    stableSort key Eq as (sortBy key as) := by
  have h : stableSort key Eq as ((sortBy key as).map id) :=
    stableSort_map (fun _ => rfl) (fun _ => rfl) as
  rwa [List.map_id] at h

theorem rel_map {f : α → α} (hr : ∀ a, r a (f a)) (o : Option α) :
    Option.Rel r o (o.map f) := by
  cases o with
  | none => exact .none
  | some a => exact .some (hr a)

theorem Container.arranged_sort (c : Container) : Container.Arranged stableSort c c.sort where
  volumeMounts := stableSort_sortBy _ _
  env := stableSort_sortBy _ _
  args := by
    have hr : c.runsJobRunner = true ↔ c.command = ["ci-operator"] := beq_iff_eq
    simp only [Container.sort, hr]
    split
    · exact stableSort_sortBy id c.args
    · rfl
  rest := rfl

theorem PodSpec.arranged_sort (s : PodSpec) : PodSpec.Arranged stableSort s s.sort where
  volumes := stableSort_sortBy _ _
  containers := stableSort_map (f := Container.sort) (fun _ => rfl) Container.arranged_sort _
  rest := rfl

theorem Job.arranged_sortSpec (b : Job) : Job.Arranged stableSort b b.sortSpec where
  spec := rel_map PodSpec.arranged_sort b.spec
  rest := rfl

theorem arrangedJob_sortSpec {J : Type} [JobLike J] (j : J) :
    ArrangedJob stableSort j (modifyJob Job.sortSpec j) where
  job := by
    rw [toJob_modifyJob]
    exact Job.arranged_sortSpec _
  rest := by rw [modifyJob, JobLike.withJob_withJob, JobLike.withJob_toJob]

theorem JobSet.arranged_sort (s : JobSet) : JobSet.Arranged stableSort s s.sort := by
  intro g
  rw [listed?_sort]
  exact rel_map (stableSort_map (nameOf_modifyJob Job.name_sortSpec) arrangedJob_sortSpec) _

/-! ### Arrangements are sorted alike -/

theorem shuffle_eq_iff : shuffle key Eq as bs ↔ as.Perm bs := by
  simp only [shuffle, List.forall₂_eq_eq_eq, exists_eq_right]

/-- Elements that a function makes the same are in the same places when sorted. -/
theorem map_sortBy_eq_of_shuffle {f : α → β} (h : shuffle key r as bs)
    (hinj : ∀ a ∈ as, ∀ b ∈ as, key a = key b → a = b)
    (hr : ∀ a ∈ as, ∀ b, r a b → key a = key b ∧ f a = f b) :
    (sortBy key as).map f = (sortBy key bs).map f := by
  obtain ⟨cs, hp, hcs⟩ := h
  have hpairs : cs.map (fun a => (key a, f a)) = bs.map fun b => (key b, f b) := by
    rw [← List.forall₂_eq_eq_eq, List.forall₂_map_left_iff, List.forall₂_map_right_iff]
    have hmem := (List.forall₂_and_left (p := (· ∈ as)) cs bs).2 ⟨fun a => hp.mem_iff.2, hcs⟩
    refine hmem.imp fun a b hab => ?_
    obtain ⟨hkey, hf⟩ := hr a hab.1 b hab.2
    exact Prod.ext hkey hf
  -- the key of a pair is its first part
  have hsort : ∀ l : List α, (sortBy key l).map f =
      (sortBy Prod.fst (l.map fun a => (key a, f a))).map Prod.snd := fun l => by
    rw [sortBy_map key Prod.fst (fun a => (key a, f a)) fun _ => rfl, List.map_map]
    rfl
  rw [sortBy_eq_of_perm hp hinj, hsort, hpairs, ← hsort]

theorem sortBy_eq_of_shuffle (h : shuffle key Eq as bs) (hd : (as.map key).Nodup) :
    sortBy key as = sortBy key bs :=
  sortBy_eq_of_perm (shuffle_eq_iff.1 h) fun _ ha _ hb => List.inj_on_of_nodup_map hd ha hb

theorem Container.Arranged.sort_eq {c d : Container} (h : Container.Arranged shuffle c d)
    (hd : c.Distinct) : c.sort = d.sort := by
  have hcommand : d.command = c.command := by rw [← h.rest]
  have hargs : (if d.runsJobRunner then sortBy id c.args else c.args) =
      if d.runsJobRunner then sortBy id d.args else d.args := by
    have hr : d.runsJobRunner = true ↔ c.command = ["ci-operator"] := hcommand ▸ beq_iff_eq
    have harranged := h.args
    simp only [hr]
    split at harranged
    · rename_i hrunner
      rw [if_pos hrunner, if_pos hrunner]
      exact sortBy_eq_of_perm (shuffle_eq_iff.1 harranged) fun _ _ _ _ => id
    · rename_i hrunner
      rw [if_neg hrunner, if_neg hrunner, harranged]
  rw [← h.rest]
  show ({ d with
    volumeMounts := sortBy VolumeMount.name c.volumeMounts
    args := if d.runsJobRunner then sortBy id c.args else c.args
    env := sortBy EnvVar.name c.env } : Container) = d.sort
  rw [hargs, sortBy_eq_of_shuffle h.volumeMounts hd.1, sortBy_eq_of_shuffle h.env hd.2]
  rfl

theorem PodSpec.Arranged.sort_eq {s t : PodSpec} (h : PodSpec.Arranged shuffle s t)
    (hd : s.Distinct) : s.sort = t.sort := by
  obtain ⟨hvolumes, hcontainers, hdist⟩ := hd
  have hsorted := map_sortBy_eq_of_shuffle (f := Container.sort) h.containers
    (fun _ hc _ hd => List.inj_on_of_nodup_map hcontainers hc hd) fun c hc d hcd =>
      ⟨(congrArg Container.name hcd.rest).symm, hcd.sort_eq (hdist c hc)⟩
  rw [← h.rest]
  show ({ t with
    volumes := sortBy Volume.name s.volumes
    containers := (sortBy Container.name s.containers).map Container.sort } : PodSpec) = t.sort
  rw [hsorted, sortBy_eq_of_shuffle h.volumes hvolumes]
  rfl

theorem map_eq_of_rel {f : α → β} {o o' : Option α} (h : Option.Rel r o o')
    (hr : ∀ a ∈ o, ∀ b, r a b → f a = f b) : o.map f = o'.map f := by
  cases h with
  | none => rfl
  | some hab => exact congrArg some (hr _ rfl _ hab)

theorem Job.Arranged.sortSpec_eq {b c : Job} (h : Job.Arranged shuffle b c) (hd : b.Distinct) :
    b.sortSpec = c.sortSpec := by
  have hspec := map_eq_of_rel (f := PodSpec.sort) h.spec fun s hs t hst => hst.sort_eq (hd s hs)
  rw [← h.rest]
  show ({ c with spec := b.spec.map PodSpec.sort } : Job) = c.sortSpec
  rw [hspec]
  rfl

end

section

variable {J : Type} [JobLike J] {js ks : List J}

theorem ArrangedJob.nameOf_eq {R : Arrangement} {j k : J} (h : ArrangedJob R j k) :
    nameOf j = nameOf k := by
  unfold nameOf
  rw [← h.job.rest]

theorem ArrangedJob.modifyJob_eq {j k : J} (h : ArrangedJob shuffle j k)
    (hd : (JobLike.toJob j).Distinct) : modifyJob Job.sortSpec j = modifyJob Job.sortSpec k := by
  rw [modifyJob, h.job.sortSpec_eq hd, ← h.rest, JobLike.withJob_withJob, modifyJob]

/-- Jobs of distinct names are sorted alike, in whatever order they and their lists are. -/
theorem sortJobs_eq_of_shuffle (h : shuffle nameOf (ArrangedJob shuffle) js ks)
    (hd : DistinctNames js) (hjobs : ∀ j ∈ js, (JobLike.toJob j).Distinct) :
    sortJobs js = sortJobs ks :=
  map_sortBy_eq_of_shuffle h (fun _ hj _ hk => hd.eq hj hk) fun j hj _ hjk =>
    ⟨hjk.nameOf_eq, hjk.modifyJob_eq (hjobs j hj)⟩

end

/-! ### Arrangements of arrangements -/

/-- Where one way of arranging lists allows no more than another, it allows no more for job sets. -/
theorem JobSet.Arranged.imp {R R' : Arrangement} {s t : JobSet} (h : JobSet.Arranged R s t)
    (hR : ∀ {α : Type} {key : α → String} {r r' : α → α → Prop} {as bs : List α},
      (∀ a b, r a b → r' a b) → R key r as bs → R' key r' as bs) : JobSet.Arranged R' s t := by
  have hcontainer : ∀ c d, Container.Arranged R c d → Container.Arranged R' c d := by
    rintro c d ⟨hmounts, henv, hargs, hrest⟩
    refine ⟨hR (fun _ _ => id) hmounts, hR (fun _ _ => id) henv, ?_, hrest⟩
    split
    · rename_i hrunner
      rw [if_pos hrunner] at hargs
      exact hR (fun _ _ => id) hargs
    · rename_i hrunner
      rwa [if_neg hrunner] at hargs
  have hspec : ∀ s t, PodSpec.Arranged R s t → PodSpec.Arranged R' s t :=
    fun s t h => ⟨hR (fun _ _ => id) h.volumes, hR hcontainer h.containers, h.rest⟩
  have hrel : ∀ {β : Type} {r r' : β → β → Prop} {o o' : Option β}, (∀ a b, r a b → r' a b) →
      Option.Rel r o o' → Option.Rel r' o o' := by
    rintro β r r' o o' hr (hab | _)
    · exact .some (hr _ _ hab)
    · exact .none
  exact fun g => hrel (fun _ _ => hR fun j k hjk =>
    ⟨⟨hrel hspec hjk.job.spec, hjk.job.rest⟩, hjk.rest⟩) (h g)

section

variable {α : Type} {key : α → String} {r : α → α → Prop}

/-- Lists that can be shuffled into the same list are shuffles of each other, if the like holds of
their elements. -/
theorem shuffle_of_shuffle (hr : ∀ a b c, r a c → r b c → r a b) {as bs xs : List α}
    (ha : shuffle key r as xs) (hb : shuffle key r bs xs) : shuffle key r as bs := by
  have hlists : ∀ {as bs xs : List α}, List.Forall₂ r as xs → List.Forall₂ r bs xs →
      List.Forall₂ r as bs := by
    intro as bs xs ha
    induction ha generalizing bs with
    | nil =>
      rintro ⟨⟩
      exact .nil
    | cons hax _ ih =>
      rintro (_ | ⟨hbx, hb⟩)
      exact .cons (hr _ _ _ hax hbx) (ih hb)
  obtain ⟨cs, hp, hcs⟩ := ha
  obtain ⟨ds, hq, hds⟩ := hb
  -- the order can be changed before the elements are
  have hcomp : Relation.Comp (List.Forall₂ r) List.Perm cs bs := ⟨ds, hlists hcs hds, hq.symm⟩
  rw [List.forall₂_comp_perm_eq_perm_comp_forall₂] at hcomp
  obtain ⟨es, hes, hbs⟩ := hcomp
  exact ⟨es, hp.trans hes, hbs⟩

theorem perm_of_shuffle {as bs xs : List α} (ha : shuffle key Eq as xs)
    (hb : shuffle key Eq bs xs) : shuffle key Eq as bs :=
  shuffle_of_shuffle (fun _ _ _ h h' => h.trans h'.symm) ha hb

theorem rel_of_rel (hr : ∀ a b c, r a c → r b c → r a b) {o o' x : Option α}
    (h : Option.Rel r o x) (h' : Option.Rel r o' x) : Option.Rel r o o' := by
  cases h with
  | none =>
    cases h'
    exact .none
  | some hac =>
    cases h' with
    | some hbc => exact .some (hr _ _ _ hac hbc)

theorem Container.shuffled_of_shuffled (c d e : Container) (h : Container.Arranged shuffle c e)
    (h' : Container.Arranged shuffle d e) : Container.Arranged shuffle c d where
  volumeMounts := perm_of_shuffle h.volumeMounts h'.volumeMounts
  env := perm_of_shuffle h.env h'.env
  args := by
    have hcommand : d.command = c.command := by rw [← h.rest, ← h'.rest]
    have hargs := h.args
    have hargs' := h'.args
    rw [hcommand] at hargs'
    split
    · rename_i hrunner
      rw [if_pos hrunner] at hargs hargs'
      exact perm_of_shuffle hargs hargs'
    · rename_i hrunner
      rw [if_neg hrunner] at hargs hargs'
      rw [← hargs, ← hargs']
  rest := by
    rw [← h'.rest]
    exact h.rest

theorem PodSpec.shuffled_of_shuffled (s t u : PodSpec) (h : PodSpec.Arranged shuffle s u)
    (h' : PodSpec.Arranged shuffle t u) : PodSpec.Arranged shuffle s t where
  volumes := perm_of_shuffle h.volumes h'.volumes
  containers := shuffle_of_shuffle Container.shuffled_of_shuffled h.containers h'.containers
  rest := by
    rw [← h'.rest]
    exact h.rest

theorem Job.shuffled_of_shuffled (a b c : Job) (h : Job.Arranged shuffle a c)
    (h' : Job.Arranged shuffle b c) : Job.Arranged shuffle a b where
  spec := rel_of_rel PodSpec.shuffled_of_shuffled h.spec h'.spec
  rest := by
    rw [← h'.rest]
    exact h.rest

theorem shuffled_of_shuffled {J : Type} [JobLike J] (j k l : J) (h : ArrangedJob shuffle j l)
    (h' : ArrangedJob shuffle k l) : ArrangedJob shuffle j k where
  job := Job.shuffled_of_shuffled _ _ _ h.job h'.job
  rest := by
    rw [← h'.rest, JobLike.withJob_withJob]
    exact h.rest

theorem JobSet.shuffled_of_shuffled {s t u : JobSet} (h : JobSet.Arranged shuffle s u)
    (h' : JobSet.Arranged shuffle t u) : JobSet.Arranged shuffle s t := by
  intro g
  refine rel_of_rel (fun js ks ls => ?_) (h g) (h' g)
  exact shuffle_of_shuffle JobConfig.shuffled_of_shuffled

end

/-! ### Sets -/

namespace JobSet

theorem jobs_of_listed? {s : JobSet} {g : Grouping} {js : List g.Record}
    (h : s.listed? g = some js) : s.jobs g = js := by
  cases g with
  | presubmits repo => exact congrArg (·.getD []) h
  | postsubmits repo => exact congrArg (·.getD []) h
  | periodics => exact Option.some.inj h

theorem shuffled_sort (s : JobSet) : JobSet.Arranged shuffle s s.sort :=
  s.arranged_sort.imp fun hr ⟨_, cs, hp, _, hcs⟩ => ⟨cs, hp, hcs.imp hr⟩

theorem Arranged.sort_eq {s t : JobSet} (h : JobSet.Arranged shuffle s t) (hd : s.Distinct)
    (hjobs : s.Every Job.Distinct) : s.sort = t.sort := by
  refine ext_listed? fun g => ?_
  rw [listed?_sort, listed?_sort]
  refine map_eq_of_rel (h g) fun js hjs ks hjks => ?_
  have hg : s.jobs g = js := jobs_of_listed? hjs
  exact sortJobs_eq_of_shuffle hjks (hg ▸ hd g) (hg ▸ hjobs g)

theorem sort_sort (s : JobSet) : s.sort.sort = s.sort := by
  refine ext_listed? fun g => ?_
  rw [listed?_sort, listed?_sort, Option.map_map]
  exact congrArg (Option.map · _) (funext sortJobs_sortJobs)

/-- Sorting is a stable arrangement of all lists that have an order by names or by values, sorting
again changes nothing, and sets of distinct names are sorted alike just if each is a shuffle of the
other. -/
theorem sort_canonical (s : JobSet) :
    JobSet.Arranged stableSort s s.sort ∧ s.sort.sort = s.sort ∧
    ∀ t, s.Distinct → s.Every Job.Distinct →
      (s.sort = t.sort ↔ JobSet.Arranged shuffle s t) := by
  refine ⟨s.arranged_sort, s.sort_sort, fun t hd hjobs => ⟨fun h => ?_, fun h => ?_⟩⟩
  · exact shuffled_of_shuffled s.shuffled_sort (h ▸ t.shuffled_sort)
  · exact h.sort_eq hd hjobs

/-- Two jobs with all their lists in one order or another, but for what is given to the shell. -/
def twoJobs (order : ∀ {α : Type}, List α → List α) : JobSet :=
  let runner : Container :=
    { name := "test", command := runnerCommand, args := order ["--target=b", "--target=a"]
      env := order [{ name := "REPO" }, { name := "Branch" }]
      volumeMounts := order [{ name := "src" }, { name := "cache" }] }
  let shell : Container := { name := "shell", command := ["sh"], args := ["-c", "--", "b", "a"] }
  let spec : PodSpec :=
    { volumes := order [{ name := "src" }, { name := "cache" }]
      containers := order [runner, shell] }
  { presubmits := KeyMap.ofList
      [("o/r", order [{ name := "unit", spec := some spec }, { name := "lint" }])] }

/-- Jobs with their lists in order and in reverse are shuffles of each other. -/
theorem sort_canonical_twoJobs : (twoJobs id).Distinct ∧ (twoJobs id).Every Job.Distinct ∧
    twoJobs id ≠ twoJobs List.reverse ∧
    JobSet.Arranged shuffle (twoJobs id) (twoJobs List.reverse) := by
  have hd : (twoJobs id).Distinct := by decide
  have hjobs : (twoJobs id).Every Job.Distinct := by decide
  have hsort : (twoJobs id).sort = (twoJobs List.reverse).sort := by decide +kernel
  have hne : twoJobs id ≠ twoJobs List.reverse := by decide +kernel
  exact ⟨hd, hjobs, hne,
    ((sort_canonical (twoJobs id)).2.2 (twoJobs List.reverse) hd hjobs).1 hsort⟩

end JobSet

end JobConfig
