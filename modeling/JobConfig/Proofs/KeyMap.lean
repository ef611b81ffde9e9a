import JobConfig.KeyMap

/-!
# Maps and their entries

A map is determined by what it binds, and binds just what its entries say.
-/

namespace JobConfig.KeyMap

variable {κ α β : Type} [Ord κ] [Std.LawfulEqOrd κ]

theorem nodup_entries (m : KeyMap κ α) : m.entries.Nodup :=
  m.increasing.imp fun h e => by simp [e] at h

theorem nodup_keys (m : KeyMap κ α) : m.keys.Nodup :=
  List.pairwise_map.2 (m.increasing.imp fun h e => by simp [e] at h)

variable [DecidableEq κ]

theorem get?_mapValues (f : α → β) (m : KeyMap κ α) (k : κ) :
    (m.mapValues f).get? k = (m.get? k).map f := by
  have h : ∀ es : List (κ × α),
      find k (es.map fun e => (e.1, f e.2)) = (find k es).map f := by
    intro es
    induction es with
    | nil => rfl
    | cons e es ih =>
      rw [List.map_cons, find_cons, find_cons, ih]
      split <;> rfl
  exact h m.entries

/-- A key that is less than all others is not bound. -/
theorem find_eq_none_of_lt {k : κ} {es : List (κ × α)} (h : ∀ e ∈ es, compare k e.1 = .lt) :
    find k es = none := by
  induction es with
  | nil => rfl
  | cons e es ih =>
    have hne : k ≠ e.1 := by
      intro hk
      have hlt := h e List.mem_cons_self
      simp [hk] at hlt
    rw [find_cons, if_neg hne]
    exact ih fun e he => h e (List.mem_cons_of_mem _ he)

theorem mem_iff_find {k : κ} {v : α} {es : List (κ × α)}
    (h : es.Pairwise fun a b => compare a.1 b.1 = .lt) : (k, v) ∈ es ↔ find k es = some v := by
  induction es with
  | nil => simp
  | cons e es ih =>
    obtain ⟨he, hes⟩ := List.pairwise_cons.1 h
    rw [find_cons, List.mem_cons, ih hes]
    by_cases hk : k = e.1
    · have hno : find k es = none := find_eq_none_of_lt fun e' he' => hk ▸ he e' he'
      rw [if_pos hk]
      constructor
      · rintro (rfl | hf)
        · rfl
        · rw [hno] at hf
          cases hf
      · intro hv
        exact .inl (Prod.ext hk (Option.some.inj hv).symm)
    · rw [if_neg hk]
      constructor
      · rintro (rfl | hf)
        · exact absurd rfl hk
        · exact hf
      · exact .inr

theorem mem_entries_iff {m : KeyMap κ α} {k : κ} {v : α} :
    (k, v) ∈ m.entries ↔ m.get? k = some v :=
  mem_iff_find m.increasing

theorem mem_values_iff {m : KeyMap κ α} {v : α} : v ∈ m.values ↔ ∃ k, m.get? k = some v := by
  simp only [values, List.mem_map, Prod.exists, exists_eq_right, mem_entries_iff]

theorem get?_isSome_iff {m : KeyMap κ α} {k : κ} :
    (m.get? k).isSome = true ↔ k ∈ m.keys := by
  simp only [keys, List.mem_map, Prod.exists, exists_and_right, exists_eq_right, mem_entries_iff,
    Option.isSome_iff_exists]

theorem get?_filter (p : κ → α → Bool) (m : KeyMap κ α) (k : κ) :
    (m.filter p).get? k = (m.get? k).filter (p k) := by
  cases hm : m.get? k with
  | none =>
    rw [Option.filter_none, Option.eq_none_iff_forall_ne_some]
    intro v hv
    rw [← mem_entries_iff] at hv
    have := mem_entries_iff.1 (List.mem_filter.1 hv).1
    rw [hm] at this
    contradiction
  | some v =>
    have hmem := mem_entries_iff.2 hm
    by_cases hp : p k v
    · rw [Option.filter_some, if_pos hp, ← mem_entries_iff]
      exact List.mem_filter.2 ⟨hmem, hp⟩
    · rw [Option.filter_some, if_neg hp, Option.eq_none_iff_forall_ne_some]
      intro w hw
      obtain ⟨hw, hpw⟩ := List.mem_filter.1 (mem_entries_iff.2 hw)
      rw [mem_entries_iff, hm] at hw
      obtain rfl := Option.some.inj hw
      exact hp hpw

/-- What a map binds is one entry among those of the other keys. -/
theorem entries_perm_erase {m : KeyMap κ α} {k : κ} {v : α} (h : m.get? k = some v) :
    m.entries.Perm ((k, v) :: (m.erase k).entries) := by
  have hno : (k, v) ∉ (m.erase k).entries := by
    rw [mem_entries_iff, get?_erase, if_pos rfl]
    simp
  rw [List.perm_ext_iff_of_nodup (nodup_entries m) (List.nodup_cons.2 ⟨hno, nodup_entries _⟩)]
  rintro ⟨j, w⟩
  rw [List.mem_cons, mem_entries_iff, mem_entries_iff, get?_erase, Prod.mk.injEq]
  by_cases hj : j = k
  · subst hj
    simp [h, eq_comm]
  · simp [hj]

variable [Std.TransOrd κ]

omit [DecidableEq κ] in
/-- Lists in increasing key order with the same entries are the same. -/
theorem eq_of_increasing {es es' : List (κ × α)}
    (h : es.Pairwise fun a b => compare a.1 b.1 = .lt)
    (h' : es'.Pairwise fun a b => compare a.1 b.1 = .lt) (hmem : ∀ e, e ∈ es ↔ e ∈ es') :
    es = es' := by
  have hp : es.Perm es' := by
    rw [List.perm_ext_iff_of_nodup (h.imp fun h e => by simp [e] at h)
      (h'.imp fun h e => by simp [e] at h)]
    exact hmem
  refine hp.eq_of_pairwise (fun a b _ _ hab hba => ?_) h h'
  rw [Std.OrientedOrd.eq_swap (a := a.1), hba] at hab
  contradiction

/-- Maps that bind the same are the same. -/
theorem ext_get? {m m' : KeyMap κ α} (h : ∀ k, m.get? k = m'.get? k) : m = m' := by
  have he : m.entries = m'.entries := eq_of_increasing m.increasing m'.increasing fun e => by
    rw [mem_entries_iff, mem_entries_iff, h]
  cases m
  cases m'
  cases he
  rfl

theorem erase_insert (m : KeyMap κ α) (k : κ) (v : α) : (m.insert k v).erase k = m.erase k := by
  refine ext_get? fun j => ?_
  rw [get?_erase, get?_erase, get?_insert]
  split <;> rfl

theorem erase_of_get?_eq_none {m : KeyMap κ α} {k : κ} (h : m.get? k = none) : m.erase k = m := by
  refine ext_get? fun j => ?_
  rw [get?_erase]
  split
  · rename_i hj
    rw [hj, h]
  · rfl

/-- Of several entries of one key in a list the last one counts. -/
theorem get?_ofList (es : List (κ × α)) (k : κ) :
    (ofList es).get? k = ((es.filter fun e => e.1 = k).getLast?).map (·.2) := by
  suffices h : ∀ (es : List (κ × α)) (m : KeyMap κ α),
      (es.foldl (fun m e => m.insert e.1 e.2) m).get? k =
        (((es.filter fun e => e.1 = k).getLast?).map (·.2)).or (m.get? k) by
    rw [ofList, h]
    exact Option.or_none
  intro es
  induction es with
  | nil => simp
  | cons e es ih =>
    intro m
    rw [List.foldl_cons, ih, get?_insert, List.filter_cons]
    by_cases he : e.1 = k
    · simp only [he, decide_true, if_true, List.getLast?_cons]
      cases (es.filter fun e => decide (e.1 = k)).getLast? <;> rfl
    · simp only [he, decide_false, if_neg (Ne.symm he)]
      rfl

theorem mem_of_mem_ofList {es : List (κ × α)} {k : κ} {v : α} (h : (ofList es).get? k = some v) :
    (k, v) ∈ es := by
  rw [get?_ofList, Option.map_eq_some_iff] at h
  obtain ⟨e, he, rfl⟩ := h
  obtain ⟨hmem, hk⟩ := List.mem_filter.1 (List.mem_of_getLast? he)
  rw [decide_eq_true_eq] at hk
  exact hk ▸ hmem

@[simp] theorem ofList_entries (m : KeyMap κ α) : ofList m.entries = m := by
  refine ext_get? fun k => Option.ext fun v => ⟨fun h => ?_, fun h => ?_⟩
  · exact mem_entries_iff.1 (mem_of_mem_ofList h)
  · have hmem : (k, v) ∈ m.entries.filter fun e => e.1 = k :=
      List.mem_filter.2 ⟨mem_entries_iff.2 h, by simp⟩
    -- there is an entry of this key, and it is the only one
    obtain ⟨w, hw⟩ : ∃ w, (ofList m.entries).get? k = some w := by
      rw [get?_ofList, List.getLast?_eq_some_getLast (List.ne_nil_of_mem hmem)]
      exact ⟨_, rfl⟩
    rw [hw, ← mem_entries_iff.1 (mem_of_mem_ofList hw), h]

end JobConfig.KeyMap
