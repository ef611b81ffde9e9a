/-!
# Finite maps in key order

A map is its list of entries, strictly increasing by key. Two maps with the same entries are
therefore equal, and listing a map needs no sorting.
-/

namespace JobConfig

/-- A finite map from `κ` to `α`, as entries in strictly increasing key order. -/
structure KeyMap (κ α : Type) [Ord κ] where
  entries : List (κ × α)
  increasing : entries.Pairwise fun a b => compare a.1 b.1 = .lt
deriving DecidableEq

namespace KeyMap

variable {κ α β : Type} [Ord κ]

/-- The map without entries. -/
def empty : KeyMap κ α := ⟨[], .nil⟩

instance : EmptyCollection (KeyMap κ α) := ⟨empty⟩

instance : Inhabited (KeyMap κ α) := ⟨empty⟩

/-- Put an entry into an increasing list, replacing the one of the same key. -/
def insertEntry (k : κ) (v : α) : List (κ × α) → List (κ × α)
  | [] => [(k, v)]
  | e :: es =>
    match compare k e.1 with
    | .lt => (k, v) :: e :: es
    | .eq => (k, v) :: es
    | .gt => e :: insertEntry k v es

theorem mem_insertEntry {k : κ} {v : α} {e : κ × α} :
    ∀ {es : List (κ × α)}, e ∈ insertEntry k v es → e = (k, v) ∨ e ∈ es
  | [], h => by simpa [insertEntry] using h
  | x :: xs, h => by
    unfold insertEntry at h
    split at h
    · simpa using h
    · simp only [List.mem_cons] at h ⊢
      exact h.imp_right .inr
    · simp only [List.mem_cons] at h ⊢
      rcases h with h | h
      · exact .inr (.inl h)
      · exact (mem_insertEntry h).imp_right .inr

section Ordered

variable [Std.TransOrd κ] [Std.LawfulEqOrd κ]

theorem increasing_insertEntry (k : κ) (v : α) : ∀ {es : List (κ × α)},
    es.Pairwise (fun a b => compare a.1 b.1 = .lt) →
      (insertEntry k v es).Pairwise fun a b => compare a.1 b.1 = .lt
  | [], _ => by simp [insertEntry]
  | x :: xs, h => by
    obtain ⟨hx, hxs⟩ := List.pairwise_cons.1 h
    unfold insertEntry
    split
    · rename_i hlt
      refine List.pairwise_cons.2 ⟨fun e he => ?_, h⟩
      rcases List.mem_cons.1 he with rfl | he
      · exact hlt
      · exact Std.TransCmp.lt_trans hlt (hx e he)
    · rename_i heq
      obtain rfl := Std.LawfulEqCmp.eq_of_compare heq
      exact List.pairwise_cons.2 ⟨hx, hxs⟩
    · rename_i hgt
      refine List.pairwise_cons.2 ⟨fun e he => ?_, increasing_insertEntry k v hxs⟩
      rcases mem_insertEntry he with rfl | he
      · exact Std.OrientedCmp.lt_of_gt hgt
      · exact hx e he

/-- The map with `k` bound to `v`. -/
def insert (m : KeyMap κ α) (k : κ) (v : α) : KeyMap κ α :=
  ⟨insertEntry k v m.entries, increasing_insertEntry k v m.increasing⟩

/-- The map of a list of entries; of several entries of one key the last one counts. -/
def ofList (es : List (κ × α)) : KeyMap κ α :=
  es.foldl (fun m e => m.insert e.1 e.2) empty

end Ordered

/-- The value bound to `k`. -/
def get? (m : KeyMap κ α) (k : κ) : Option α :=
  (m.entries.find? fun e => compare k e.1 == .eq).map (·.2)

/-- Whether `k` is bound. -/
def contains (m : KeyMap κ α) (k : κ) : Bool :=
  (m.get? k).isSome

/-- The map without a binding of `k`. -/
def erase (m : KeyMap κ α) (k : κ) : KeyMap κ α :=
  ⟨m.entries.filter fun e => compare k e.1 != .eq, m.increasing.filter _⟩

/-- The map whose entries satisfy `p`. -/
def filter (p : κ → α → Bool) (m : KeyMap κ α) : KeyMap κ α :=
  ⟨m.entries.filter fun e => p e.1 e.2, m.increasing.filter _⟩

/-- The map with every value replaced by its image. -/
def mapValues (f : α → β) (m : KeyMap κ α) : KeyMap κ β :=
  ⟨m.entries.map fun e => (e.1, f e.2), List.pairwise_map.2 m.increasing⟩

/-- What a list of entries binds `k` to. -/
def find (k : κ) (es : List (κ × α)) : Option α :=
  (es.find? fun e => compare k e.1 == .eq).map (·.2)

@[simp] theorem find_nil (k : κ) : find k ([] : List (κ × α)) = none := rfl

@[simp] theorem get?_empty (k : κ) : (∅ : KeyMap κ α).get? k = none := rfl

section Laws

variable [Std.LawfulEqOrd κ]

theorem find_cons [DecidableEq κ] (k : κ) (e : κ × α) (es : List (κ × α)) :
    find k (e :: es) = if k = e.1 then some e.2 else find k es := by
  unfold find
  by_cases h : k = e.1
  · simp [h]
  · simp [h, Std.LawfulEqCmp.compare_eq_iff_eq]

theorem find_insertEntry [DecidableEq κ] (j k : κ) (v : α) : ∀ es : List (κ × α),
    find j (insertEntry k v es) = if j = k then some v else find j es
  | [] => by simp [insertEntry, find_cons]
  | e :: es => by
    unfold insertEntry
    split
    · rw [find_cons]
    · rename_i heq
      obtain rfl := Std.LawfulEqCmp.eq_of_compare heq
      simp only [find_cons]
      split <;> rfl
    · rename_i hgt
      rw [find_cons, find_insertEntry j k v es, find_cons]
      by_cases hj : j = e.1
      · have hk : j ≠ k := by
          rintro rfl
          simp [hj] at hgt
        rw [if_pos hj, if_neg hk, if_pos hj]
      · rw [if_neg hj, if_neg hj]

theorem get?_insert [Std.TransOrd κ] [DecidableEq κ] (m : KeyMap κ α) (k : κ) (v : α) (j : κ) :
    (m.insert k v).get? j = if j = k then some v else m.get? j :=
  find_insertEntry j k v m.entries

theorem find_filter [DecidableEq κ] (p : κ → Bool) (j : κ) : ∀ es : List (κ × α),
    find j (es.filter fun e => p e.1) = if p j then find j es else none
  | [] => by simp
  | e :: es => by
    rw [List.filter_cons]
    split
    · rename_i hp
      rw [find_cons, find_filter p j es, find_cons]
      by_cases hj : j = e.1
      · simp [hj, hp]
      · simp [hj]
    · rename_i hp
      rw [find_filter p j es, find_cons]
      by_cases hj : j = e.1
      · simp [hj, hp]
      · simp [hj]

theorem get?_erase [DecidableEq κ] (m : KeyMap κ α) (k j : κ) :
    (m.erase k).get? j = if j = k then none else m.get? j := by
  have h := find_filter (fun i => compare k i != .eq) j m.entries
  by_cases hj : j = k
  · subst hj
    simp [get?, erase]
  · have hk : ¬compare k j = .eq := fun e => hj (Std.LawfulEqCmp.eq_of_compare e).symm
    simpa [hj, hk, get?, erase, find] using h

theorem get?_filterKeys [DecidableEq κ] (m : KeyMap κ α) (p : κ → Bool) (j : κ) :
    (m.filter fun k _ => p k).get? j = if p j then m.get? j else none :=
  find_filter p j m.entries

end Laws

/-- The keys in increasing order. -/
def keys (m : KeyMap κ α) : List κ :=
  m.entries.map (·.1)

/-- The values in the order of their keys. -/
def values (m : KeyMap κ α) : List α :=
  m.entries.map (·.2)

/-- Whether nothing is bound. -/
def isEmpty (m : KeyMap κ α) : Bool :=
  m.entries.isEmpty

end KeyMap

end JobConfig
