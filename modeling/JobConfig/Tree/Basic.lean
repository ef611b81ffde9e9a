import JobConfig.Failure
import JobConfig.KeyMap

/-!
# File trees

A tree of files, directories and links, as a map from locations. A location is the list of names
that lead to it from the root, and the entries of the map are in the order of a walk through the
tree: a directory comes right before what it holds, and the entries of a directory come in the order
of their names. Every entry has a proper name and lies in a directory.
-/

namespace JobConfig

/-- The names that lead to a place from the root of a tree. -/
abbrev Location := List Bytes

/-- What a place of a tree holds. -/
inductive Entry where
  | file (content : Bytes)
  | directory
  | link (target : Path)
deriving DecidableEq, Inhabited

/-- A tree. What it holds has a name and is held by its directories. -/
structure FileTree where
  entries : KeyMap Location Entry
  held : ∀ l e, entries.get? l = some e → l.getLast?.any Path.isName = true ∧
    (l.dropLast = [] ∨ entries.get? l.dropLast = some .directory)

namespace FileTree

/-- The tree whose root is empty. -/
def empty : FileTree := ⟨∅, by simp⟩

instance : EmptyCollection FileTree := ⟨empty⟩

instance : Inhabited FileTree := ⟨empty⟩

/-- What a location holds. The root is a directory. -/
def get? (t : FileTree) (l : Location) : Option Entry :=
  if l = [] then some .directory else t.entries.get? l

/-- Whether something may be put at a location: the location has a name, lies in a directory and is
none. -/
def Admits (t : FileTree) (l : Location) : Prop :=
  l.getLast?.any Path.isName = true ∧ t.get? l.dropLast = some .directory ∧
    t.entries.get? l ≠ some .directory

instance (t : FileTree) (l : Location) : Decidable (t.Admits l) := by
  unfold Admits
  infer_instance

/-- The tree with an entry put at a location that admits one. -/
def put (t : FileTree) (l : Location) (e : Entry) : FileTree :=
  if h : t.Admits l then
    { entries := t.entries.insert l e
      held := by
        obtain ⟨hl, hd, hn⟩ := h
        intro k f hk
        have parent : ∀ j, t.entries.get? j = some .directory →
            (t.entries.insert l e).get? j = some .directory := by
          intro j hj
          rw [KeyMap.get?_insert, if_neg (by rintro rfl; exact hn hj), hj]
        rw [KeyMap.get?_insert] at hk
        split at hk
        · rename_i hkl
          subst hkl
          refine ⟨hl, ?_⟩
          unfold get? at hd
          split at hd
          · exact .inl ‹_›
          · exact .inr (parent _ hd)
        · exact (t.held k f hk).imp_right (Or.imp_right (parent _)) }
  else t

/-- The tree without the file or link at a location. -/
def remove (t : FileTree) (l : Location) : FileTree :=
  if h : t.entries.get? l = some .directory then t
  else
    { entries := t.entries.erase l
      held := by
        intro k f hk
        rw [KeyMap.get?_erase] at hk
        split at hk
        · simp at hk
        · refine (t.held k f hk).imp_right (Or.imp_right fun hp => ?_)
          rw [KeyMap.get?_erase, if_neg (by intro e; exact h (e ▸ hp)), hp] }

/-- The tree without a location and what it holds. -/
def removeAll (t : FileTree) (l : Location) : FileTree where
  entries := t.entries.filter fun k _ => !l.isPrefixOf k
  held := by
    intro k f hk
    rw [KeyMap.get?_filterKeys t.entries fun k => !l.isPrefixOf k] at hk
    split at hk
    · rename_i hkl
      refine (t.held k f hk).imp_right (Or.imp_right fun hp => ?_)
      rw [KeyMap.get?_filterKeys t.entries fun k => !l.isPrefixOf k, if_pos, hp]
      simp only [Bool.not_eq_true', ← Bool.not_eq_true, List.isPrefixOf_iff_prefix] at hkl ⊢
      exact fun hd => hkl (hd.trans (List.dropLast_prefix k))
    · simp at hk

/-- What a location holds, in the order of a walk, each with the names that lead to it. -/
def below (t : FileTree) (l : Location) : List (Location × Entry) :=
  t.entries.entries.filterMap fun e =>
    if l.isPrefixOf e.1 && l != e.1 then some (e.1.drop l.length, e.2) else none

end FileTree

end JobConfig
