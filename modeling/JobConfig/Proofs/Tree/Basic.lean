import JobConfig.Proofs.KeyMap
import JobConfig.Tree.Basic
import Mathlib.Data.List.Induction

/-!
# Entries of a tree

What a location holds after a change, and what being held by directories means for the locations
above it.
-/

namespace JobConfig.FileTree

variable {t : FileTree} {l : Location}

@[simp] theorem get?_root (t : FileTree) : t.get? [] = some .directory := rfl

theorem get?_of_ne_nil (h : l ≠ []) : t.get? l = t.entries.get? l := if_neg h

/-- An entry has a name and lies in a directory. -/
theorem parent_of_get? {e : Entry} (h : t.get? l = some e) (hl : l ≠ []) :
    l.getLast?.any Path.isName = true ∧ t.get? l.dropLast = some .directory := by
  rw [get?_of_ne_nil hl] at h
  obtain ⟨hn, hp⟩ := t.held l e h
  refine ⟨hn, ?_⟩
  rcases hp with hp | hp
  · rw [hp, get?_root]
  · by_cases h0 : l.dropLast = []
    · rw [h0, get?_root]
    · rw [get?_of_ne_nil h0, hp]

/-- Whether a list consists of names. -/
def Named (names : Location) : Prop :=
  ∀ n ∈ names, Path.isName n = true

theorem Named.exists_concat {names : Location} (h : Named names) (hne : names ≠ []) :
    ∃ ms m, names = ms ++ [m] ∧ Named ms ∧ Path.isName m = true := by
  obtain ⟨ms, m, rfl⟩ : ∃ ms m, names = ms ++ [m] :=
    ⟨_, _, (List.dropLast_concat_getLast hne).symm⟩
  exact ⟨ms, m, rfl, fun n hn => h n (List.mem_append_left _ hn), h m (by simp)⟩

/-- What leads from a location to an entry are names, and what is on the way are directories. -/
theorem directory_of_get?_append {names : Location} {e : Entry} (h : t.get? (l ++ names) = some e)
    (hn : names ≠ []) :
    Named names ∧ t.get? (l ++ names.dropLast) = some .directory ∧ t.get? l = some .directory := by
  induction names using List.reverseRecOn generalizing e with
  | nil => exact absurd rfl hn
  | append_singleton names n ih =>
    obtain ⟨hname, hp⟩ := parent_of_get? h (by simp)
    rw [← List.append_assoc, List.getLast?_concat, Option.any_some] at hname
    rw [← List.append_assoc, List.dropLast_concat] at hp
    rw [List.dropLast_concat]
    by_cases h0 : names = []
    · subst h0
      rw [List.append_nil] at hp ⊢
      exact ⟨fun m hm => by simpa [List.mem_singleton.1 hm] using hname, hp, hp⟩
    · obtain ⟨hnames, -, hl⟩ := ih hp h0
      refine ⟨fun m hm => ?_, hp, hl⟩
      rcases List.mem_append.1 hm with hm | hm
      · exact hnames m hm
      · simpa [List.mem_singleton.1 hm] using hname

/-! ### Changes -/

theorem get?_put {e : Entry} (h : t.Admits l) (k : Location) :
    (t.put l e).get? k = if k = l then some e else t.get? k := by
  have hl : l ≠ [] := by
    rintro rfl
    simp [Admits] at h
  rw [put, dif_pos h]
  by_cases hk : k = []
  · subst hk
    rw [if_neg (Ne.symm hl)]
    rfl
  · rw [get?_of_ne_nil hk, get?_of_ne_nil hk, KeyMap.get?_insert]

theorem get?_remove (h : t.get? l ≠ some .directory) (k : Location) :
    (t.remove l).get? k = if k = l then none else t.get? k := by
  have hl : l ≠ [] := by
    rintro rfl
    exact h (get?_root t)
  rw [get?_of_ne_nil hl] at h
  rw [remove, dif_neg h]
  by_cases hk : k = []
  · subst hk
    rw [if_neg (Ne.symm hl)]
    rfl
  · rw [get?_of_ne_nil hk, get?_of_ne_nil hk, KeyMap.get?_erase]

theorem get?_remove_of_ne {k : Location} (h : k ≠ l) : (t.remove l).get? k = t.get? k := by
  rw [remove]
  split
  · rfl
  · by_cases hk : k = []
    · rw [hk]
      rfl
    · rw [get?_of_ne_nil hk, get?_of_ne_nil hk, KeyMap.get?_erase, if_neg h]

/-- What is removed is gone, unless it is a directory, which stays. -/
theorem get?_remove_self (t : FileTree) (l : Location) :
    (t.remove l).get? l = t.get? l ∨ (t.remove l).get? l = none := by
  rw [remove]
  split
  · exact .inl rfl
  · by_cases hl : l = []
    · subst hl
      exact .inl rfl
    · rw [get?_of_ne_nil (t := ⟨_, _⟩) hl, KeyMap.get?_erase, if_pos rfl]
      exact .inr rfl

/-! ### Trees without links -/

/-- Whether a tree has no links. -/
def LinkFree (t : FileTree) : Prop :=
  ∀ l target, t.get? l ≠ some (.link target)

/-- Trees whose entries are no links have no links. -/
theorem linkFree_iff : t.LinkFree ↔ ∀ e ∈ t.entries.entries, ∀ target, e.2 ≠ .link target := by
  constructor
  · intro h e he target heq
    have hget := KeyMap.mem_entries_iff.1 he
    by_cases hl : e.1 = []
    · obtain ⟨hn, -⟩ := t.held _ _ hget
      simp [hl] at hn
    · exact h e.1 target (by rw [get?_of_ne_nil hl, hget, heq])
  · intro h l target hget
    by_cases hl : l = []
    · rw [hl, get?_root] at hget
      cases hget
    · rw [get?_of_ne_nil hl] at hget
      exact h _ (KeyMap.mem_entries_iff.2 hget) target rfl

theorem file_ne_link (c : Bytes) (target : Path) : Entry.file c ≠ .link target := nofun

theorem directory_ne_link (target : Path) : Entry.directory ≠ .link target := nofun

instance (e : Entry) : Decidable (∀ target, e ≠ .link target) :=
  match e with
  | .link target => isFalse fun h => h target rfl
  | .file c => isTrue (file_ne_link c)
  | .directory => isTrue directory_ne_link

instance (t : FileTree) : Decidable t.LinkFree :=
  decidable_of_iff _ linkFree_iff.symm

/-- The content of the file at a location, if there is one. -/
def fileAt? (t : FileTree) (l : Location) : Option Bytes :=
  match t.get? l with
  | some (.file c) => some c
  | _ => none

theorem fileAt?_eq_some_iff {c : Bytes} : t.fileAt? l = some c ↔ t.get? l = some (.file c) := by
  unfold fileAt?
  cases t.get? l with
  | none => simp
  | some e => cases e <;> simp

/-- What lies below a location. -/
theorem mem_below {names : Location} {e : Entry} :
    (names, e) ∈ t.below l ↔ names ≠ [] ∧ t.get? (l ++ names) = some e := by
  simp only [below, List.mem_filterMap, Option.ite_none_right_eq_some, Prod.exists,
    Option.some.injEq, Prod.mk.injEq, KeyMap.mem_entries_iff, Bool.and_eq_true, bne_iff_ne,
    List.isPrefixOf_iff_prefix]
  constructor
  · rintro ⟨k, f, hk, ⟨⟨ns, rfl⟩, hne⟩, hd, rfl⟩
    rw [List.drop_left] at hd
    subst hd
    have hns : ns ≠ [] := by
      rintro rfl
      simp at hne
    exact ⟨hns, by rw [get?_of_ne_nil (by simp [hns]), hk]⟩
  · rintro ⟨hn, h⟩
    rw [get?_of_ne_nil (by simp [hn])] at h
    exact ⟨l ++ names, e, h, ⟨List.prefix_append l names, by simpa using Ne.symm hn⟩,
      List.drop_left, rfl⟩

end JobConfig.FileTree
