import JobConfig.Proofs.Order
import JobConfig.Proofs.Tree.Basic

/-!
# What is inside a location

What is inside a location is what names lead to from there, through directories only. A walk comes to
it in the order of these names.
-/

namespace JobConfig.FileTree

variable {t : FileTree} {l names rest : Location} {e : Entry}

/-! ### Below a location -/

theorem below_increasing (t : FileTree) (l : Location) :
    (t.below l).Pairwise fun a b => compare a.1 b.1 = .lt := by
  refine List.Pairwise.filterMap _ (fun a b hab a' ha' b' hb' => ?_) t.entries.increasing
  simp only [Option.ite_none_right_eq_some, Bool.and_eq_true,
    List.isPrefixOf_iff_prefix, Option.some.injEq] at ha' hb'
  obtain ⟨⟨⟨as, has⟩, -⟩, rfl⟩ := ha'
  obtain ⟨⟨⟨bs, hbs⟩, -⟩, rfl⟩ := hb'
  rw [← has, ← hbs, compare_append_left] at hab
  rwa [← has, ← hbs, List.drop_left, List.drop_left]

theorem below_eq_nil (h : t.get? l = some e) (he : e ≠ .directory) : t.below l = [] := by
  refine List.eq_nil_iff_forall_not_mem.2 fun c hc => he ?_
  obtain ⟨hne, hget⟩ := mem_below.1 hc
  exact Option.some.inj (h.symm.trans (directory_of_get?_append hget hne).2.2)

/-! ### Inside a location -/

/-- What names lead to from a location, through directories. -/
inductive Inside (t : FileTree) (l : Location) : Location → Entry → Prop where
  | self {e : Entry} (h : t.get? l = some e) : Inside t l [] e
  | entry {names : Location} {n : Bytes} {e : Entry} (hd : Inside t l names .directory)
    (h : t.get? (l ++ (names ++ [n])) = some e) : Inside t l (names ++ [n]) e

theorem inside_iff : t.Inside l names e ↔ t.get? (l ++ names) = some e := by
  constructor
  · intro h
    cases h with
    | self h => rwa [List.append_nil]
    | entry hd h => exact h
  · intro h
    induction names using List.reverseRecOn generalizing e with
    | nil => exact .self (by rwa [List.append_nil] at h)
    | append_singleton names n ih =>
      have hdir := (directory_of_get?_append h (by simp)).2.1
      rw [List.dropLast_concat] at hdir
      exact .entry (ih hdir) h

/-- What is inside a location, in the order of a walk. -/
def inside (t : FileTree) (l : Location) : List (Location × Entry) :=
  ((t.get? l).map fun e => ([], e)).toList ++ t.below l

theorem mem_inside : (names, e) ∈ t.inside l ↔ t.Inside l names e := by
  rw [inside_iff, inside, List.mem_append, mem_below, Option.mem_toList, Option.map_eq_some_iff]
  by_cases hn : names = []
  · subst hn
    simp
  · simp [hn, Ne.symm hn]

theorem inside_increasing (t : FileTree) (l : Location) :
    (t.inside l).Pairwise fun a b => compare a.1 b.1 = .lt := by
  refine List.pairwise_append.2 ⟨?_, below_increasing t l, fun a ha b hb => ?_⟩
  · cases t.get? l <;> simp
  · rw [Option.mem_toList, Option.map_eq_some_iff] at ha
    obtain ⟨e, -, rfl⟩ := ha
    obtain ⟨m, rest, hb⟩ := List.exists_cons_of_ne_nil (mem_below.1 hb).1
    rw [hb]
    rfl

/-- What is inside a location that names lead to is what is inside the first one and starts with
these names. -/
theorem inside_append (t : FileTree) (l names : Location) :
    (t.inside (l ++ names)).map (fun e => (names ++ e.1, e.2)) =
      (t.inside l).filter fun e => names.isPrefixOf e.1 := by
  refine KeyMap.eq_of_increasing (List.pairwise_map.2 ?_) ((inside_increasing t l).filter _) ?_
  · exact (inside_increasing t _).imp fun hab => by rwa [compare_append_left]
  · rintro ⟨ns, e⟩
    simp only [List.mem_map, Prod.exists, Prod.mk.injEq, mem_inside, inside_iff, List.mem_filter,
      List.isPrefixOf_iff_prefix]
    constructor
    · rintro ⟨rest, e', h, rfl, rfl⟩
      exact ⟨by rwa [List.append_assoc] at h, List.prefix_append names rest⟩
    · rintro ⟨h, rest, rfl⟩
      exact ⟨rest, e, by rwa [List.append_assoc], rfl, rfl⟩

/-- The names that lead to what is inside a location are names. -/
theorem Inside.named (h : t.Inside l names e) : Named names := by
  rw [inside_iff] at h
  by_cases hn : names = []
  · rw [hn]
    exact fun m hm => absurd hm List.not_mem_nil
  · exact (directory_of_get?_append h hn).1

/-- A link holds nothing. -/
theorem Inside.eq_nil_of_link {target : Path} (hl : t.Inside l names (.link target))
    (h : t.Inside l (names ++ rest) e) : rest = [] := by
  rw [inside_iff] at hl h
  by_contra hne
  rw [← List.append_assoc] at h
  have hdir := (directory_of_get?_append h hne).2.2
  rw [hl] at hdir
  cases hdir

end JobConfig.FileTree
