import JobConfig.Proofs.Utf8
import Mathlib.Algebra.Group.Nat.Defs

/-!
# The order of texts

Texts are in the order of their bytes: a character that is less than another has a lesser byte where
their bytes differ first, and the bytes of none are the first ones of another.
-/

namespace JobConfig

/-! ### Lists -/

theorem compare_append_left {α : Type} [Ord α] [Std.ReflOrd α] (l as bs : List α) :
    compare (l ++ as) (l ++ bs) = compare as bs := by
  induction l with
  | nil => rfl
  | cons a l ih => simp [List.compare_cons_cons, ih]

theorem compare_map_cons {α : Type} [Ord α] [Std.ReflOrd α] (a : α) (as bs : List (List α)) :
    compare (as.map (a :: ·)) (bs.map (a :: ·)) = compare as bs := by
  induction as generalizing bs with
  | nil => cases bs <;> rfl
  | cons x as ih =>
    cases bs with
    | nil => rfl
    | cons y bs => simp [List.compare_cons_cons, ih]

namespace Utf8

/-! ### Bytes -/

variable {m n : Nat} {as bs : Bytes}

theorem compare_ofNat_lt (hn : n < 256) (h : m < n) :
    compare (UInt8.ofNat m :: as) (UInt8.ofNat n :: bs) = .lt := by
  have hlt : compare (UInt8.ofNat m) (UInt8.ofNat n) = .lt := by
    rw [Std.compare_eq_lt, UInt8.lt_iff_toNat_lt, toNat_ofNat hn, toNat_ofNat (by omega)]
    exact h
  rw [List.compare_cons_cons, hlt]
  rfl

theorem compare_ofNat_eq (h : m = n) :
    compare (UInt8.ofNat m :: as) (UInt8.ofNat n :: bs) = compare as bs := by
  rw [h, List.compare_cons_cons, Std.ReflOrd.compare_self]
  rfl

/-- The last bytes of a character, each with six bits of it. -/
def inner (v : Nat) : (count : Nat) → Bytes
  | 0 => []
  | k + 1 => UInt8.ofNat (v / 64 ^ k % 64 + 0x80) :: inner v k

theorem compare_inner {v w k : Nat} (h : v % 64 ^ k < w % 64 ^ k) :
    compare (inner v k ++ as) (inner w k ++ bs) = .lt := by
  induction k with
  | zero => omega
  | succ k ih =>
    have hpos : 0 < 64 ^ k := Nat.pow_pos (by decide)
    rw [Nat.pow_succ, Nat.mod_mul, Nat.mod_mul] at h
    rw [inner, inner, List.cons_append, List.cons_append]
    rcases Nat.lt_trichotomy (v / 64 ^ k % 64) (w / 64 ^ k % 64) with hd | hd | hd
    · exact compare_ofNat_lt (by omega) (by omega)
    · rw [compare_ofNat_eq (by omega)]
      exact ih (by rw [hd] at h; omega)
    · -- a greater digit outweighs what follows
      have hw := Nat.mod_lt w hpos
      have hle := Nat.mul_le_mul_left (64 ^ k) (Nat.succ_le_of_lt hd)
      rw [Nat.mul_succ] at hle
      omega

/-- Characters with as many bytes each, of which the first ones hold what is left. -/
theorem compare_leading {v w k : Nat} (lead : Nat) (h : v < w) (hw : w / 64 ^ k + lead < 256) :
    compare (UInt8.ofNat (v / 64 ^ k + lead) :: (inner v k ++ as))
      (UInt8.ofNat (w / 64 ^ k + lead) :: (inner w k ++ bs)) = .lt := by
  rcases Nat.lt_or_ge (v / 64 ^ k) (w / 64 ^ k) with hd | hd
  · exact compare_ofNat_lt hw (by omega)
  · have heq : v / 64 ^ k = w / 64 ^ k := Nat.le_antisymm (Nat.div_le_div_right (Nat.le_of_lt h)) hd
    rw [compare_ofNat_eq (by omega)]
    refine compare_inner ?_
    have hdv := Nat.div_add_mod v (64 ^ k)
    rw [heq] at hdv
    have hdw := Nat.div_add_mod w (64 ^ k)
    omega

/-- The bytes of a lesser character come before those of a greater one, whatever follows. -/
theorem compare_encodeChar {c d : Char} (h : c < d) (as bs : Bytes) :
    compare (String.utf8EncodeChar c ++ as) (String.utf8EncodeChar d ++ bs) = .lt := by
  obtain ⟨v, hv⟩ : ∃ v, c.val.toNat = v := ⟨_, rfl⟩
  obtain ⟨w, hw⟩ : ∃ w, d.val.toNat = w := ⟨_, rfl⟩
  have hlt : v < w := by
    rw [← hv, ← hw]
    exact h
  have hmax : w < 0xd800 ∨ 0xdfff < w ∧ w < 0x110000 := hw ▸ d.valid
  simp only [String.utf8EncodeChar, hv, hw]
  simp only [apply_ite (· ++ as), apply_ite (· ++ bs), List.cons_append, List.nil_append]
  -- a character of more bytes starts with a greater one
  by_cases h1 : v ≤ 0x7f
  · rw [if_pos h1]
    split
    · exact compare_ofNat_lt (by omega) (by omega)
    split
    · exact compare_ofNat_lt (by omega) (by omega)
    split <;> exact compare_ofNat_lt (by omega) (by omega)
  rw [if_neg h1, if_neg (show ¬w ≤ 0x7f by omega)]
  by_cases h2 : v ≤ 0x7ff
  · rw [if_pos h2]
    split
    · rw [Nat.mod_eq_of_lt (show v / 64 < 0x20 by omega),
        Nat.mod_eq_of_lt (show w / 64 < 0x20 by omega)]
      simpa [inner] using compare_leading (k := 1) 0xc0 hlt (by omega)
    split <;> exact compare_ofNat_lt (by omega) (by omega)
  rw [if_neg h2, if_neg (show ¬w ≤ 0x7ff by omega)]
  by_cases h3 : v ≤ 0xffff
  · rw [if_pos h3]
    split
    · rw [Nat.mod_eq_of_lt (show v / 4096 < 0x10 by omega),
        Nat.mod_eq_of_lt (show w / 4096 < 0x10 by omega)]
      simpa [inner] using compare_leading (k := 2) 0xe0 hlt (by omega)
    · exact compare_ofNat_lt (by omega) (by omega)
  · rw [if_neg h3, if_neg (show ¬w ≤ 0xffff by omega),
      Nat.mod_eq_of_lt (show v / 262144 < 0x08 by omega),
      Nat.mod_eq_of_lt (show w / 262144 < 0x08 by omega)]
    simpa [inner] using compare_leading (k := 3) 0xf0 hlt (by omega)

theorem encodeChar_ne_nil (c : Char) : String.utf8EncodeChar c ≠ [] := by
  rw [← List.length_pos_iff, String.length_utf8EncodeChar]
  exact c.utf8Size_pos

theorem compare_flatMap_of_lt {cs ds : List Char} (h : cs < ds) :
    compare (cs.flatMap String.utf8EncodeChar) (ds.flatMap String.utf8EncodeChar) = .lt := by
  induction cs generalizing ds with
  | nil =>
    cases ds with
    | nil => exact absurd h (List.lt_irrefl _)
    | cons d ds =>
      rw [List.flatMap_cons]
      cases hd : String.utf8EncodeChar d with
      | nil => exact absurd hd (encodeChar_ne_nil d)
      | cons b bs => rfl
  | cons c cs ih =>
    cases ds with
    | nil => exact absurd h (List.not_lt_nil _)
    | cons d ds =>
      rw [List.flatMap_cons, List.flatMap_cons]
      rcases List.cons_lt_cons_iff.1 h with hlt | ⟨rfl, hrest⟩
      · exact compare_encodeChar hlt _ _
      · rw [compare_append_left, ih hrest]

/-- Texts are in the order of their bytes. -/
theorem compare_encode (s t : String) : compare (encode s) (encode t) = compare s t := by
  have hlt : ∀ {s t : String}, compare s t = .lt → compare (encode s) (encode t) = .lt :=
    fun h => compare_flatMap_of_lt (String.lt_iff.1 (compareOfLessAndEq_eq_lt.1 h))
  cases h : compare s t with
  | lt => exact hlt h
  | eq =>
    rw [Std.LawfulEqOrd.eq_of_compare h]
    exact Std.ReflOrd.compare_self
  | gt =>
    rw [Std.OrientedOrd.eq_swap, hlt (Std.OrientedCmp.lt_of_gt h)]
    rfl

end Utf8

end JobConfig
