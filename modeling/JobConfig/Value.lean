import JobConfig.Decimal.Binary64

/-!
# Values of a document

What a document says, without its layout. A mapping keeps the order of its entries and any value may
be a key. Two keys are the same if they are equal up to the order of mappings inside them.
-/

namespace JobConfig

/-- A value of a document. -/
inductive Value where
  | null
  | bool (b : Bool)
  | int (i : Int)
  | float (x : Binary64)
  | string (s : String)
  | sequence (items : List Value)
  | mapping (entries : List (Value × Value))
  | tagged (tag : String) (value : Value)
deriving Inhabited

namespace Value

mutual

/-- Equality of values is decidable. -/
def decEq : (a b : Value) → Decidable (a = b)
  | .null, b => match b with
    | .null => isTrue rfl
    | .bool _ | .int _ | .float _ | .string _ | .sequence _ | .mapping _ | .tagged .. =>
      isFalse nofun
  | .bool x, b => match b with
    | .bool y => decidable_of_iff (x = y) (by simp)
    | .null | .int _ | .float _ | .string _ | .sequence _ | .mapping _ | .tagged .. =>
      isFalse nofun
  | .int x, b => match b with
    | .int y => decidable_of_iff (x = y) (by simp)
    | .null | .bool _ | .float _ | .string _ | .sequence _ | .mapping _ | .tagged .. =>
      isFalse nofun
  | .float x, b => match b with
    | .float y => decidable_of_iff (x = y) (by simp)
    | .null | .bool _ | .int _ | .string _ | .sequence _ | .mapping _ | .tagged .. =>
      isFalse nofun
  | .string x, b => match b with
    | .string y => decidable_of_iff (x = y) (by simp)
    | .null | .bool _ | .int _ | .float _ | .sequence _ | .mapping _ | .tagged .. =>
      isFalse nofun
  | .sequence xs, b => match b with
    | .sequence ys =>
      have := decEqItems xs ys
      decidable_of_iff (xs = ys) (by simp)
    | .null | .bool _ | .int _ | .float _ | .string _ | .mapping _ | .tagged .. => isFalse nofun
  | .mapping xs, b => match b with
    | .mapping ys =>
      have := decEqEntries xs ys
      decidable_of_iff (xs = ys) (by simp)
    | .null | .bool _ | .int _ | .float _ | .string _ | .sequence _ | .tagged .. => isFalse nofun
  | .tagged s x, b => match b with
    | .tagged t y =>
      have := decEq x y
      decidable_of_iff (s = t ∧ x = y) (by simp)
    | .null | .bool _ | .int _ | .float _ | .string _ | .sequence _ | .mapping _ => isFalse nofun

/-- Equality of lists of values is decidable. -/
def decEqItems : (a b : List Value) → Decidable (a = b)
  | [], [] => isTrue rfl
  | [], _ :: _ | _ :: _, [] => isFalse nofun
  | x :: xs, y :: ys =>
    have := decEq x y
    have := decEqItems xs ys
    decidable_of_iff (x = y ∧ xs = ys) (by simp)

/-- Equality of lists of entries is decidable. -/
def decEqEntries : (a b : List (Value × Value)) → Decidable (a = b)
  | [], [] => isTrue rfl
  | [], _ :: _ | _ :: _, [] => isFalse nofun
  | (k, x) :: xs, (l, y) :: ys =>
    have := decEq k l
    have := decEq x y
    have := decEqEntries xs ys
    decidable_of_iff ((k = l ∧ x = y) ∧ xs = ys) (by simp)

end

instance : DecidableEq Value := decEq

mutual

/-- Whether two values are the same key. -/
def sameKey : Value → Value → Bool
  | .null, .null => true
  | .bool a, .bool b => a == b
  | .int a, .int b => a == b
  | .float a, .float b => a == b || (a.isZero && b.isZero)
  | .string a, .string b => a == b
  | .sequence xs, .sequence ys => sameItems xs ys
  | .mapping xs, .mapping ys => xs.length == ys.length && sameEntries xs ys
  | .tagged s a, .tagged t b => s == t && sameKey a b
  | _, _ => false

/-- Whether two sequences hold the same keys in the same order. -/
def sameItems : List Value → List Value → Bool
  | [], [] => true
  | x :: xs, y :: ys => sameKey x y && sameItems xs ys
  | _, _ => false

/-- Whether each entry of the first mapping is one of the second. -/
def sameEntries : List (Value × Value) → List (Value × Value) → Bool
  | [], _ => true
  | (k, x) :: es, fs => fs.any (fun f => sameKey k f.1 && sameKey x f.2) && sameEntries es fs

end

/-- Whether a value is right below a tag. -/
def isTagged : Value → Bool
  | .tagged .. => true
  | _ => false

/-- A value without the tags above it. -/
def untagged : Value → Value
  | .tagged _ v => untagged v
  | v => v

mutual

/-- Whether a tag stands right below another one anywhere in a value. -/
def nestsTags : Value → Bool
  | .sequence vs => anyNestsTags vs
  | .mapping es => anyEntryNestsTags es
  | .tagged _ v => v.isTagged || nestsTags v
  | .null | .bool _ | .int _ | .float _ | .string _ => false

/-- The same for some item. -/
def anyNestsTags : List Value → Bool
  | [] => false
  | v :: vs => nestsTags v || anyNestsTags vs

/-- The same for some entry. -/
def anyEntryNestsTags : List (Value × Value) → Bool
  | [] => false
  | (k, v) :: es => nestsTags k || nestsTags v || anyEntryNestsTags es

end

end Value

end JobConfig
