/-!
# Labels of branches

A label is the part of a file name that stands for a branch, or for a pattern of branches.
-/

namespace JobConfig.Label

/-- Whether a character may stand in a label. -/
def isAllowed (c : Char) : Bool :=
  c.isAlphanum || c == '_' || c == '.' || c == '-'

/-- Whether a character is taken off the ends of a label. -/
def isEdge (c : Char) : Bool :=
  c == '_' || c == '.' || c == '-'

/-- The characters without those of `p` at both ends. -/
def trim (p : Char → Bool) (cs : List Char) : List Char :=
  ((cs.dropWhile p).reverse.dropWhile p).reverse

/-- The label of what is left without a letter or digit. -/
def fallback : String := "master"

/-- The label of a branch: its allowed characters, trimmed. -/
def ofBranch (branch : String) : String :=
  match trim isEdge (branch.toList.filter isAllowed) with
  | [] => fallback
  | cs => String.ofList cs

end JobConfig.Label
