import Mathlib.Data.List.Nodup

/-!
# Lists

Lists of which at most one element counts, and lists of results all of which are there.
-/

namespace JobConfig

variable {α β : Type}

theorem eq_of_perm_of_length_le_one {as bs : List α} (hp : as.Perm bs)
    (h : as.length ≤ 1) : as = bs := by
  match as, h with
  | [], _ => exact (List.nil_perm.1 hp).symm
  | [a], _ => exact List.singleton_perm.1 hp

/-- Where elements are told apart by their keys, those of one key are the same in any order. -/
theorem filter_key_eq_of_perm {κ : Type} [DecidableEq κ] {key : α → κ} {as bs : List α}
    (hp : as.Perm bs) (hinj : ∀ a ∈ as, ∀ b ∈ as, key a = key b → a = b) (k : κ) :
    as.filter (fun a => key a = k) = bs.filter fun b => key b = k := by
  have hpair : ∀ l : List α, l.Pairwise fun _ _ => True := fun l =>
    List.pairwise_of_forall fun _ _ => trivial
  refine (hp.filter _).eq_of_pairwise (fun a b ha hb _ _ => ?_) (hpair _) (hpair _)
  rw [List.mem_filter, decide_eq_true_eq] at ha hb
  exact hinj a ha.1 b (hp.mem_iff.2 hb.1) (ha.2.trans hb.2.symm)

/-- If at most one element of a list without duplicates contributes, it contributes all. -/
theorem flatMap_eq_of_forall_ne {as : List α} {f : α → List β} {a : α}
    (hn : as.Nodup) (ha : a ∈ as ∨ f a = []) (h : ∀ b ∈ as, b ≠ a → f b = []) :
    as.flatMap f = f a := by
  by_cases hmem : a ∈ as
  · induction as with
    | nil => cases hmem
    | cons b as ih =>
      obtain ⟨hb, hn⟩ := List.nodup_cons.1 hn
      rw [List.flatMap_cons]
      rcases List.mem_cons.1 hmem with rfl | hmem
      · have hrest : ∀ b ∈ as, f b = [] := fun b hbm =>
          h b (List.mem_cons_of_mem _ hbm) fun e => hb (e ▸ hbm)
        rw [List.flatMap_eq_nil_iff.2 hrest, List.append_nil]
      · rw [h b List.mem_cons_self (fun e => hb (e ▸ hmem)), List.nil_append,
          ih hn (.inl hmem) (fun c hc => h c (List.mem_cons_of_mem _ hc)) hmem]
  · rw [ha.resolve_left hmem]
    exact List.flatMap_eq_nil_iff.2 fun b hb => h b hb fun e => hmem (e ▸ hb)

theorem toOption_eq_some_iff {ε : Type} {x : Except ε α} {a : α} :
    x.toOption = some a ↔ x = .ok a := by
  cases x <;> simp [Except.toOption]

theorem mapM_eq_some_iff {f : α → Option β} {as : List α} {bs : List β} :
    as.mapM f = some bs ↔ (∀ a ∈ as, (f a).isSome) ∧ bs = as.filterMap f := by
  induction as generalizing bs with
  | nil =>
    rw [List.mapM_nil, Option.pure_def, Option.some.injEq, eq_comm]
    simp
  | cons a as ih =>
    rw [List.mapM_cons, List.forall_mem_cons, List.filterMap_cons]
    cases f a with
    | none => simp
    | some b =>
      simp only [Option.bind_eq_bind, Option.bind_some, Option.pure_def, Option.isSome_some,
        true_and, Option.bind_eq_some_iff, Option.some.injEq, ih]
      constructor
      · rintro ⟨bs', ⟨has, rfl⟩, rfl⟩
        exact ⟨has, rfl⟩
      · rintro ⟨has, rfl⟩
        exact ⟨_, ⟨has, rfl⟩, rfl⟩

/-- Results that are all there, side by side with what they are the results of. -/
theorem exists_pairs_of_mapM {f : α → Option β} {as : List α} {bs : List β}
    (h : as.mapM f = some bs) : ∃ ps : List (α × β), as = ps.map Prod.fst ∧
      bs = ps.map Prod.snd ∧ ∀ p ∈ ps, f p.1 = some p.2 := by
  induction as generalizing bs with
  | nil => exact ⟨[], rfl, (Option.some.inj h).symm, nofun⟩
  | cons a as ih =>
    rw [List.mapM_cons] at h
    obtain ⟨b, hb, h⟩ := Option.bind_eq_some_iff.1 h
    obtain ⟨bs', hbs, h⟩ := Option.bind_eq_some_iff.1 h
    obtain rfl := Option.some.inj h
    obtain ⟨ps, rfl, rfl, hps⟩ := ih hbs
    exact ⟨(a, b) :: ps, rfl, rfl, List.forall_mem_cons.2 ⟨hb, hps⟩⟩

/-- A list is read again from its images, if each of its elements is. -/
theorem mapM_map_eq_some {f : β → Option α} {g : α → β} {as : List α}
    (h : ∀ a ∈ as, f (g a) = some a) : (as.map g).mapM f = some as := by
  induction as with
  | nil => rfl
  | cons a as ih =>
    rw [List.map_cons, List.mapM_cons, h a List.mem_cons_self,
      ih fun a' ha' => h a' (List.mem_cons_of_mem _ ha')]
    rfl

theorem mapM_congr_mem {f g : α → Option β} {as : List α}
    (h : ∀ a ∈ as, f a = g a) : as.mapM f = as.mapM g := by
  induction as with
  | nil => rfl
  | cons a as ih =>
    rw [List.mapM_cons, List.mapM_cons, h a List.mem_cons_self,
      ih fun a' ha' => h a' (List.mem_cons_of_mem _ ha')]

theorem mapM_append_cons_congr {f : α → Option β} {as bs : List α} {a b : α}
    (h : f a = f b) : (as ++ a :: bs).mapM f = (as ++ b :: bs).mapM f := by
  rw [List.mapM_append, List.mapM_append, List.mapM_cons, List.mapM_cons, h]

end JobConfig
