/-!
# Stable sorting by a key

Elements with equal keys keep their order.
-/

namespace JobConfig

variable {α κ : Type} [Ord κ]

/-- Put an element in front of the first one whose key is not smaller. -/
def insertBy (key : α → κ) (a : α) : List α → List α
  | [] => [a]
  | b :: bs => if compare (key b) (key a) = .lt then b :: insertBy key a bs else a :: b :: bs

/-- The list in ascending order of its keys. -/
def sortBy (key : α → κ) (as : List α) : List α :=
  as.foldr (insertBy key) []

@[simp] theorem sortBy_nil (key : α → κ) : sortBy key [] = [] := rfl

@[simp] theorem sortBy_cons (key : α → κ) (a : α) (as : List α) :
    sortBy key (a :: as) = insertBy key a (sortBy key as) := rfl

theorem insertBy_perm (key : α → κ) (a : α) : ∀ as : List α, (insertBy key a as).Perm (a :: as)
  | [] => .refl _
  | b :: bs => by
    unfold insertBy
    split
    · exact ((insertBy_perm key a bs).cons b).trans (.swap a b bs)
    · exact .refl _

theorem sortBy_perm (key : α → κ) : ∀ as : List α, (sortBy key as).Perm as
  | [] => .refl _
  | a :: as => (insertBy_perm key a _).trans ((sortBy_perm key as).cons a)

end JobConfig
