import JobConfig.Proofs.Lists
import JobConfig.StableSort

/-!
# What stable sorting gives

The sorted list is in ascending order, a list in ascending order stays as it is, and sorting goes
together with dropping elements: those with one key keep their order.
-/

namespace JobConfig

variable {α β κ : Type} [Ord κ]

/-- Whether the keys of a list do not descend. -/
def Ascending (key : α → κ) (as : List α) : Prop :=
  as.Pairwise fun a b => compare (key b) (key a) ≠ .lt

theorem insertBy_of_le {key : α → κ} {a : α} {as : List α}
    (h : ∀ b ∈ as, compare (key b) (key a) ≠ .lt) : insertBy key a as = a :: as := by
  cases as with
  | nil => rfl
  | cons b bs => exact if_neg (h b List.mem_cons_self)

/-- A list in ascending order stays as it is. -/
theorem sortBy_of_ascending {key : α → κ} {as : List α} (h : Ascending key as) :
    sortBy key as = as := by
  induction as with
  | nil => rfl
  | cons a as ih =>
    obtain ⟨ha, has⟩ := List.pairwise_cons.1 h
    rw [sortBy_cons, ih has, insertBy_of_le ha]

theorem sortBy_map (key : α → κ) (key' : β → κ) (f : α → β) (h : ∀ a, key' (f a) = key a)
    (as : List α) : sortBy key' (as.map f) = (sortBy key as).map f := by
  have hi : ∀ (a : α) (bs : List α),
      insertBy key' (f a) (bs.map f) = (insertBy key a bs).map f := by
    intro a bs
    induction bs with
    | nil => rfl
    | cons b bs ih =>
      simp only [List.map_cons, insertBy, h, ih]
      split <;> rfl
  induction as with
  | nil => rfl
  | cons a as ih => rw [List.map_cons, sortBy_cons, sortBy_cons, ih, hi]

@[simp] theorem mem_sortBy {key : α → κ} {as : List α} {a : α} : a ∈ sortBy key as ↔ a ∈ as :=
  (sortBy_perm key as).mem_iff

section Laws

variable [Std.TransOrd κ]

theorem le_trans_key {a b c : κ} (hab : compare b a ≠ .lt) (hbc : compare c b ≠ .lt) :
    compare c a ≠ .lt := by
  intro hca
  have hab' : (compare a b).isLE = true := by
    rw [Std.OrientedOrd.eq_swap]
    revert hab
    cases compare b a <;> simp
  exact hbc (Std.TransCmp.lt_of_lt_of_isLE hca hab')

theorem ascending_insertBy {key : α → κ} {as : List α} (h : Ascending key as) (a : α) :
    Ascending key (insertBy key a as) := by
  induction as with
  | nil => exact List.pairwise_singleton _ _
  | cons b bs ih =>
    obtain ⟨hb, hbs⟩ := List.pairwise_cons.1 h
    unfold insertBy
    split
    · rename_i hlt
      refine List.pairwise_cons.2 ⟨fun x hx => ?_, ih hbs⟩
      rcases List.mem_cons.1 ((insertBy_perm key a bs).mem_iff.1 hx) with rfl | hx
      · rw [Std.OrientedOrd.eq_swap, hlt]
        decide
      · exact hb x hx
    · rename_i hge
      refine List.pairwise_cons.2 ⟨fun x hx => ?_, h⟩
      rcases List.mem_cons.1 hx with rfl | hx
      · exact hge
      · exact le_trans_key hge (hb x hx)

/-- The sorted list is in ascending order. -/
theorem ascending_sortBy (key : α → κ) (as : List α) : Ascending key (sortBy key as) := by
  induction as with
  | nil => exact List.Pairwise.nil
  | cons a as ih => exact ascending_insertBy ih a

/-- A list without a key twice is sorted into increasing order. -/
theorem increasing_sortBy [Std.LawfulEqOrd κ] {key : α → κ} {as : List α}
    (h : as.Pairwise fun a b => key a ≠ key b) :
    (sortBy key as).Pairwise fun a b => compare (key a) (key b) = .lt := by
  have hne : (sortBy key as).Pairwise fun a b => key a ≠ key b :=
    h.perm (sortBy_perm key as).symm Ne.symm
  refine (hne.and (ascending_sortBy key as)).imp fun {a b} hab => ?_
  obtain ⟨hne, hle⟩ := hab
  rw [Std.OrientedOrd.eq_swap] at hle
  cases hc : compare (key a) (key b) with
  | lt => rfl
  | eq => exact absurd (Std.LawfulEqOrd.eq_of_compare hc) hne
  | gt => simp [hc] at hle

theorem sortBy_sortBy (key : α → κ) (as : List α) : sortBy key (sortBy key as) = sortBy key as :=
  sortBy_of_ascending (ascending_sortBy key as)

theorem filter_insertBy {key : α → κ} {as : List α} (h : Ascending key as) (p : α → Bool) (a : α) :
    (insertBy key a as).filter p =
      if p a then insertBy key a (as.filter p) else as.filter p := by
  induction as with
  | nil => rw [insertBy, List.filter_cons]; rfl
  | cons b bs ih =>
    obtain ⟨hb, hbs⟩ := List.pairwise_cons.1 h
    rw [insertBy]
    split
    · rename_i hlt
      rw [List.filter_cons, List.filter_cons, ih hbs]
      by_cases hpb : p b
      · simp only [hpb, if_true, insertBy, hlt]
        split <;> rfl
      · simp only [hpb]
        rfl
    · rename_i hge
      rw [List.filter_cons, insertBy_of_le]
      intro x hx
      rcases List.mem_cons.1 (List.mem_filter.1 hx).1 with rfl | hx
      · exact hge
      · exact le_trans_key hge (hb x hx)

/-- Dropping elements of a sorted list gives the sorted list of what is left. -/
theorem filter_sortBy (key : α → κ) (p : α → Bool) (as : List α) :
    (sortBy key as).filter p = sortBy key (as.filter p) := by
  induction as with
  | nil => rfl
  | cons a as ih =>
    rw [sortBy_cons, filter_insertBy (ascending_sortBy key as), ih, List.filter_cons]
    split <;> rfl

/-- The elements with one key keep their order. -/
theorem filter_key_sortBy [DecidableEq κ] (key : α → κ) (k : κ) (as : List α) :
    (sortBy key as).filter (fun a => key a = k) = as.filter fun a => key a = k := by
  rw [filter_sortBy]
  refine sortBy_of_ascending (List.pairwise_of_forall_mem_list fun a ha b hb => ?_)
  simp only [List.mem_filter, decide_eq_true_eq] at ha hb
  rw [ha.2, hb.2]
  simp

section Unique

variable [Std.LawfulEqOrd κ] [DecidableEq κ]

omit [Ord κ] [Std.TransOrd κ] [Std.LawfulEqOrd κ] in
theorem mem_of_filter_eq {key : α → κ} {as bs : List α} {a : α}
    (h : ∀ k, as.filter (fun a => key a = k) = bs.filter fun b => key b = k) (ha : a ∈ as) :
    a ∈ bs := by
  have hf : a ∈ as.filter fun b => key b = key a := List.mem_filter.2 ⟨ha, by simp⟩
  rw [h] at hf
  exact (List.mem_filter.1 hf).1

omit [Std.LawfulEqOrd κ] [DecidableEq κ] in
theorem Ascending.head_le {key : α → κ} {a : α} {as : List α} (h : Ascending key (a :: as)) :
    ∀ b ∈ a :: as, compare (key b) (key a) ≠ .lt := by
  intro b hb
  rcases List.mem_cons.1 hb with rfl | hb
  · simp
  · exact (List.pairwise_cons.1 h).1 b hb

/-- A list in ascending order is known from its elements of each key, in their order. -/
theorem eq_of_ascending {key : α → κ} {as bs : List α} (ha : Ascending key as)
    (hb : Ascending key bs)
    (h : ∀ k, as.filter (fun a => key a = k) = bs.filter fun b => key b = k) : as = bs := by
  induction as generalizing bs with
  | nil =>
    cases bs with
    | nil => rfl
    | cons b bs =>
      exact absurd (mem_of_filter_eq (fun k => (h k).symm) List.mem_cons_self) List.not_mem_nil
  | cons a as ih =>
    cases bs with
    | nil => exact absurd (mem_of_filter_eq h List.mem_cons_self) List.not_mem_nil
    | cons b bs =>
      -- neither of the first keys is less than the other
      have hab : key a = key b := by
        have h₁ := hb.head_le a (mem_of_filter_eq h List.mem_cons_self)
        have h₂ := ha.head_le b (mem_of_filter_eq (fun k => (h k).symm) List.mem_cons_self)
        cases hc : compare (key a) (key b) with
        | lt => exact absurd hc h₁
        | eq => exact Std.LawfulEqOrd.eq_of_compare hc
        | gt => exact absurd (Std.OrientedCmp.lt_of_gt hc) h₂
      have hhead := h (key a)
      simp only [List.filter_cons, hab, decide_true, if_true, List.cons.injEq] at hhead
      obtain ⟨rfl, -⟩ := hhead
      refine congrArg (a :: ·) (ih (List.pairwise_cons.1 ha).2 (List.pairwise_cons.1 hb).2
        fun k => ?_)
      have hk := h k
      rw [List.filter_cons, List.filter_cons] at hk
      split at hk
      · exact (List.cons.inj hk).2
      · exact hk

/-- Lists with the same elements of each key, in the same order, are sorted into the same list. -/
theorem sortBy_congr {key : α → κ} {as bs : List α}
    (h : ∀ k, as.filter (fun a => key a = k) = bs.filter fun b => key b = k) :
    sortBy key as = sortBy key bs := by
  refine eq_of_ascending (ascending_sortBy key as) (ascending_sortBy key bs) fun k => ?_
  rw [filter_key_sortBy, filter_key_sortBy, h]

/-- The order of a list does not matter to what it is sorted into, where its elements are told apart
by their keys. -/
theorem sortBy_eq_of_perm {key : α → κ} {as bs : List α} (hp : as.Perm bs)
    (hinj : ∀ a ∈ as, ∀ b ∈ as, key a = key b → a = b) : sortBy key as = sortBy key bs :=
  sortBy_congr (filter_key_eq_of_perm hp hinj)

/-- Where no key occurs twice in a list, its order does not matter to what it is sorted into together
with others that come after it. -/
theorem sortBy_append_congr {key : α → κ} {as bs : List α} (hp : as.Perm bs)
    (hd : as.Pairwise fun a b => key a ≠ key b) (cs : List α) :
    sortBy key (as ++ cs) = sortBy key (bs ++ cs) := by
  have hnodup : (as.map key).Nodup := List.pairwise_map.2 hd
  refine sortBy_congr fun k => ?_
  rw [List.filter_append, List.filter_append,
    filter_key_eq_of_perm hp fun _ ha _ hb => List.inj_on_of_nodup_map hnodup ha hb]

end Unique

end Laws

end JobConfig
