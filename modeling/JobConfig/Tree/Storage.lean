import JobConfig.Tree.Resolve

/-!
# Changes and the storage under them

What a path leads to can be read, made, moved and removed. A change that the tree admits may still
be refused by the storage under it, at any time and for any reason of its own. A file whose content
is refused may be left with the beginning of it.
-/

namespace JobConfig

/-- A change of a tree. -/
inductive Change where
  | writeFile (p : Path) (content : Bytes)
  | removeFile (p : Path)
  | rename (p q : Path)
  | makeDirectory (p : Path)

/-- How the storage takes changes: which of them it refuses in which tree, and how much it keeps of
a content that it refuses once the file is open. -/
structure Storage where
  refuses : FileTree → Change → Option StorageFault
  keeps : FileTree → Change → Option Nat

namespace Storage

/-- Storage that refuses nothing. -/
def sound : Storage where
  refuses _ _ := none
  keeps _ _ := none

instance : Inhabited Storage := ⟨sound⟩

/-- Carry out a change, if neither the tree nor the storage refuses it. -/
def grant (disk : Storage) (t : FileTree) (c : Change) (r : Except Refusal FileTree) :
    Except Refusal FileTree :=
  match r, disk.refuses t c with
  | .ok _, some fault => .error (.storage fault)
  | r, _ => r

end Storage

end JobConfig
