import JobConfig.Text.Utf8

/-!
# Text as bytes, and back

Decoding the bytes of a text gives the text again: the decoder, between characters, reads the bytes
of one character and is then between characters. And bytes that decode to a text, without anything
ill-formed among them, are those of the text. A slash or a point among the bytes of a text is one
among its characters.
-/

namespace JobConfig.Utf8

theorem encode_append (s t : String) : encode (s ++ t) = encode s ++ encode t := by
  simp [encode]

/-! ### The decoder reads what the encoder writes -/

theorem toNat_ofNat {n : Nat} (h : n < 256) : (UInt8.ofNat n).toNat = n := by
  simp [Nat.mod_eq_of_lt h]

theorem lt_ofNat {n : Nat} (h : n < 256) (b : UInt8) : UInt8.ofNat n < b ↔ n < b.toNat := by
  rw [UInt8.lt_iff_toNat_lt, toNat_ofNat h]

theorem ofNat_eq {n : Nat} (h : n < 256) (b : UInt8) : UInt8.ofNat n = b ↔ n = b.toNat := by
  rw [← UInt8.toNat_inj, toNat_ofNat h]

theorem pieces_cons (s : State) (b : UInt8) (bs : Bytes) :
    pieces s (b :: bs) = (next s b).1 ++ pieces (next s b).2 bs := by
  cases s <;> rfl

/-- A character of one byte. -/
theorem first_one {n : Nat} (h : n < 0x80) :
    first (UInt8.ofNat n) = ([some (Char.ofNat n)], .ready) := by
  have hn : n < 256 := by omega
  simp only [first, lt_ofNat hn, toNat_ofNat hn, UInt8.reduceToNat]
  rw [if_pos h]

/-- The first byte of a character of two bytes. -/
theorem first_two {n : Nat} (h : 2 ≤ n) (h' : n < 32) :
    first (UInt8.ofNat (n + 0xc0)) = ([], .inside n 1 0x80 0xbf) := by
  have hn : n + 0xc0 < 256 := by omega
  simp only [first, lt_ofNat hn, toNat_ofNat hn, UInt8.reduceToNat]
  rw [if_neg (by omega), if_neg (by omega), if_pos (by omega), Nat.add_sub_cancel]

/-- The first byte of a character of three bytes: the next byte is bounded where the character would
be one of two bytes, or no character. -/
theorem first_three {n : Nat} (h : n < 16) :
    first (UInt8.ofNat (n + 0xe0)) =
      ([], .inside n 2 (if n = 0 then 0xa0 else 0x80) (if n = 13 then 0x9f else 0xbf)) := by
  have hn : n + 0xe0 < 256 := by omega
  simp only [first, lt_ofNat hn, ofNat_eq hn, toNat_ofNat hn, UInt8.reduceToNat]
  rw [if_neg (by omega), if_neg (by omega), if_neg (by omega)]
  by_cases h0 : n = 0
  · subst h0
    rfl
  · by_cases h13 : n = 13
    · subst h13
      rfl
    · rw [if_neg (by omega), if_neg (by omega), if_pos (by omega), if_neg h0, if_neg h13,
        Nat.add_sub_cancel]

/-- The first byte of a character of four bytes. -/
theorem first_four {n : Nat} (h : n < 5) :
    first (UInt8.ofNat (n + 0xf0)) =
      ([], .inside n 3 (if n = 0 then 0x90 else 0x80) (if n = 4 then 0x8f else 0xbf)) := by
  have hn : n + 0xf0 < 256 := by omega
  simp only [first, lt_ofNat hn, ofNat_eq hn, toNat_ofNat hn, UInt8.reduceToNat]
  rw [if_neg (by omega), if_neg (by omega), if_neg (by omega), if_neg (by omega),
    if_neg (by omega), if_neg (by omega)]
  by_cases h0 : n = 0
  · subst h0
    rfl
  · by_cases h4 : n = 4
    · subst h4
      rfl
    · rw [if_neg (by omega), if_pos (by omega), if_neg h0, if_neg h4, Nat.add_sub_cancel]

/-- A byte inside a character that is not its last one. -/
theorem next_more {n : Nat} (h : n < 64) (value left : Nat) {lo hi : UInt8}
    (hlo : lo.toNat ≤ n + 0x80) (hhi : n + 0x80 ≤ hi.toNat) :
    next (.inside value (left + 2) lo hi) (UInt8.ofNat (n + 0x80)) =
      ([], .inside (64 * value + n) (left + 1) 0x80 0xbf) := by
  have hn : n + 0x80 < 256 := by omega
  simp only [next, UInt8.le_iff_toNat_le, toNat_ofNat hn]
  rw [if_pos ⟨hlo, hhi⟩, if_neg (by omega), Nat.add_sub_cancel, Nat.add_one_sub_one]

/-- The last byte of a character. -/
theorem next_last {n : Nat} (h : n < 64) (value : Nat) {lo hi : UInt8}
    (hlo : lo.toNat ≤ n + 0x80) (hhi : n + 0x80 ≤ hi.toNat) :
    next (.inside value 1 lo hi) (UInt8.ofNat (n + 0x80)) =
      ([some (Char.ofNat (64 * value + n))], .ready) := by
  have hn : n + 0x80 < 256 := by omega
  simp only [next, UInt8.le_iff_toNat_le, toNat_ofNat hn]
  rw [if_pos ⟨hlo, hhi⟩, if_pos trivial, Nat.add_sub_cancel]

/-- Between characters, the bytes of a character are read as that character. -/
theorem pieces_encodeChar (c : Char) (bs : Bytes) :
    pieces .ready (String.utf8EncodeChar c ++ bs) = some c :: pieces .ready bs := by
  obtain ⟨v, hv⟩ : ∃ v, c.val.toNat = v := ⟨_, rfl⟩
  have hc : Char.ofNat v = c := by
    rw [← hv]
    exact Char.ofNat_toNat c
  have hvalid : v < 0xd800 ∨ 0xdfff < v ∧ v < 0x110000 := hv ▸ c.valid
  simp only [String.utf8EncodeChar, hv]
  simp only [apply_ite (· ++ bs), apply_ite (pieces .ready), List.cons_append, List.nil_append,
    pieces_cons, next.eq_1]
  -- one case for each number of bytes
  split
  · rw [first_one (by omega), hc]
    rfl
  split
  · have h1 : v / 64 % 0x20 = v / 64 := by omega
    have h2 : 64 * (v / 64) + v % 64 = v := by omega
    rw [h1, first_two (by omega) (by omega), next_last (by omega) _ (by simp) (by simp; omega), h2,
      hc]
    rfl
  split
  · have h1 : v / 4096 % 0x10 = v / 4096 := by omega
    have h2 : 64 * (64 * (v / 4096) + v / 64 % 64) + v % 64 = v := by omega
    rw [h1, first_three (by omega),
      next_more (by omega) _ 0 (by split <;> simp; omega) (by split <;> (simp; omega)),
      next_last (by omega) _ (by simp) (by simp; omega), h2, hc]
    rfl
  · have h1 : v / 262144 % 0x08 = v / 262144 := by omega
    have h2 : 64 * (64 * (64 * (v / 262144) + v / 4096 % 64) + v / 64 % 64) + v % 64 = v := by
      omega
    rw [h1, first_four (by omega),
      next_more (by omega) _ 1 (by split <;> simp; omega) (by split <;> (simp; omega)),
      next_more (by omega) _ 0 (by simp) (by simp; omega),
      next_last (by omega) _ (by simp) (by simp; omega), h2, hc]
    rfl

theorem pieces_flatMap (cs : List Char) :
    pieces .ready (cs.flatMap String.utf8EncodeChar) = cs.map some := by
  induction cs with
  | nil => rfl
  | cons c cs ih => rw [List.flatMap_cons, pieces_encodeChar, ih, List.map_cons]

/-- The bytes of a text decode to the text. -/
@[simp] theorem decodeLossy_encode (s : String) : decodeLossy (encode s) = s := by
  rw [decodeLossy, encode, pieces_flatMap, List.map_map]
  have h : (fun o : Option Char => o.getD '\uFFFD') ∘ some = id := rfl
  rw [h, List.map_id, String.ofList_toList]

theorem encode_inj {s t : String} : encode s = encode t ↔ s = t := by
  constructor
  · intro h
    rw [← decodeLossy_encode s, h, decodeLossy_encode]
  · rintro rfl
    rfl

/-! ### No text and no bytes -/

theorem first_ne (b : UInt8) : (first b).1 ≠ [] ∨ (first b).2 ≠ .ready := by
  unfold first
  repeat' split
  all_goals simp

theorem next_ne (s : State) (b : UInt8) : (next s b).1 ≠ [] ∨ (next s b).2 ≠ .ready := by
  cases s with
  | ready => exact first_ne b
  | inside value left lo hi =>
    rw [next]
    split
    · simp only
      split <;> simp
    · simp

theorem pieces_eq_nil_iff {s : State} {bs : Bytes} : pieces s bs = [] ↔ s = .ready ∧ bs = [] := by
  constructor
  · intro h
    induction bs generalizing s with
    | nil =>
      cases s with
      | ready => exact ⟨rfl, rfl⟩
      | inside value left lo hi => cases h
    | cons b bs ih =>
      rw [pieces_cons, List.append_eq_nil_iff] at h
      obtain ⟨hr, -⟩ := ih h.2
      exact ((next_ne s b).elim (fun hn => hn h.1) fun hn => hn hr).elim
  · rintro ⟨rfl, rfl⟩
    rfl

/-- Only no bytes decode to no text. -/
theorem decodeLossy_eq_empty {bs : Bytes} : decodeLossy bs = "" ↔ bs = [] := by
  rw [decodeLossy, String.ofList_eq_empty_iff, List.map_eq_nil_iff, pieces_eq_nil_iff]
  simp

/-! ### The encoder writes what the decoder reads -/

section

variable {bs : Bytes} {c : Char} {rest : List (Option Char)} {value left : Nat} {lo hi : UInt8}

theorem val_ofNat {n : Nat} (h : n.isValidChar) : (Char.ofNat n).val.toNat = n := by
  rw [Char.ofNat, dif_pos h]
  rfl

/-- A character is read from inside it by a byte in the bounds. -/
theorem pieces_inside (h : pieces (.inside value left lo hi) bs = some c :: rest) :
    ∃ b bs', bs = b :: bs' ∧ lo.toNat ≤ b.toNat ∧ b.toNat ≤ hi.toNat ∧
      (if left = 1 then some (Char.ofNat (64 * value + (b.toNat - 0x80))) :: pieces .ready bs'
        else pieces (.inside (64 * value + (b.toNat - 0x80)) (left - 1) 0x80 0xbf) bs') =
          some c :: rest := by
  cases bs with
  | nil => cases h
  | cons b bs =>
    rw [pieces_cons, next] at h
    split at h
    · rename_i hb
      refine ⟨b, bs, rfl, hb.1, hb.2, ?_⟩
      simp only at h
      split at h <;> rename_i hl
      · rw [if_pos hl]
        exact h
      · rw [if_neg hl]
        exact h
    · cases h

theorem eq_ofNat {b : UInt8} {n : Nat} (h : n < 256) (hb : b.toNat = n) : UInt8.ofNat n = b := by
  rw [← UInt8.toNat_inj, toNat_ofNat h, hb]

theorem pieces_two {b : UInt8} (hlo : 0xc2 ≤ b.toNat) (hhi : b.toNat < 0xe0)
    (h : pieces (.inside (b.toNat - 0xc0) 1 0x80 0xbf) bs = some c :: rest) :
    ∃ bs', b :: bs = String.utf8EncodeChar c ++ bs' ∧ pieces .ready bs' = rest := by
  obtain ⟨b₁, bs', rfl, hl₁, hh₁, h₁⟩ := pieces_inside h
  simp only [if_true, List.cons.injEq, Option.some.injEq, UInt8.reduceToNat] at h₁ hl₁ hh₁
  obtain ⟨rfl, hrest⟩ := h₁
  refine ⟨bs', ?_, hrest⟩
  have hv := val_ofNat (n := 64 * (b.toNat - 0xc0) + (b₁.toNat - 0x80)) (.inl (by omega))
  simp only [String.utf8EncodeChar, hv]
  rw [if_neg (by omega), if_pos (by omega), eq_ofNat (b := b) (by omega) (by omega),
    eq_ofNat (b := b₁) (by omega) (by omega)]
  rfl

theorem pieces_three {b : UInt8} {v : Nat} (hb : b.toNat = v + 0xe0) (hv : v < 16)
    (hlo : 0x80 ≤ lo.toNat ∧ (v = 0 → 0xa0 ≤ lo.toNat))
    (hhi : hi.toNat ≤ 0xbf ∧ (v = 13 → hi.toNat ≤ 0x9f))
    (h : pieces (.inside v 2 lo hi) bs = some c :: rest) :
    ∃ bs', b :: bs = String.utf8EncodeChar c ++ bs' ∧ pieces .ready bs' = rest := by
  obtain ⟨b₁, bs₁, rfl, hl₁, hh₁, h₁⟩ := pieces_inside h
  rw [if_neg (by decide)] at h₁
  obtain ⟨b₂, bs', rfl, hl₂, hh₂, h₂⟩ := pieces_inside h₁
  simp only [Nat.reduceSub, if_true, List.cons.injEq, Option.some.injEq, UInt8.reduceToNat]
    at h₂ hl₂ hh₂
  obtain ⟨rfl, hrest⟩ := h₂
  refine ⟨bs', ?_, hrest⟩
  have hval := val_ofNat (n := 64 * (64 * v + (b₁.toNat - 0x80)) + (b₂.toNat - 0x80))
    (by rw [Nat.isValidChar]; omega)
  simp only [String.utf8EncodeChar, hval]
  rw [if_neg (by omega), if_neg (by omega), if_pos (by omega),
    eq_ofNat (b := b) (by omega) (by omega), eq_ofNat (b := b₁) (by omega) (by omega),
    eq_ofNat (b := b₂) (by omega) (by omega)]
  rfl

theorem pieces_four {b : UInt8} {v : Nat} (hb : b.toNat = v + 0xf0) (hv : v < 5)
    (hlo : 0x80 ≤ lo.toNat ∧ (v = 0 → 0x90 ≤ lo.toNat))
    (hhi : hi.toNat ≤ 0xbf ∧ (v = 4 → hi.toNat ≤ 0x8f))
    (h : pieces (.inside v 3 lo hi) bs = some c :: rest) :
    ∃ bs', b :: bs = String.utf8EncodeChar c ++ bs' ∧ pieces .ready bs' = rest := by
  obtain ⟨b₁, bs₁, rfl, hl₁, hh₁, h₁⟩ := pieces_inside h
  rw [if_neg (by decide)] at h₁
  obtain ⟨b₂, bs₂, rfl, hl₂, hh₂, h₂⟩ := pieces_inside h₁
  rw [if_neg (by decide)] at h₂
  obtain ⟨b₃, bs', rfl, hl₃, hh₃, h₃⟩ := pieces_inside h₂
  simp only [Nat.reduceSub, if_true, List.cons.injEq, Option.some.injEq, UInt8.reduceToNat]
    at h₃ hl₂ hh₂ hl₃ hh₃
  obtain ⟨rfl, hrest⟩ := h₃
  refine ⟨bs', ?_, hrest⟩
  have hval := val_ofNat
    (n := 64 * (64 * (64 * v + (b₁.toNat - 0x80)) + (b₂.toNat - 0x80)) + (b₃.toNat - 0x80))
    (by rw [Nat.isValidChar]; omega)
  simp only [String.utf8EncodeChar, hval]
  rw [if_neg (by omega), if_neg (by omega), if_neg (by omega),
    eq_ofNat (b := b) (by omega) (by omega), eq_ofNat (b := b₁) (by omega) (by omega),
    eq_ofNat (b := b₂) (by omega) (by omega), eq_ofNat (b := b₃) (by omega) (by omega)]
  rfl

/-- Between characters, what is read as a character are its bytes. -/
theorem pieces_ready (h : pieces .ready bs = some c :: rest) :
    ∃ bs', bs = String.utf8EncodeChar c ++ bs' ∧ pieces .ready bs' = rest := by
  cases bs with
  | nil => cases h
  | cons b bs =>
    have hb := b.toNat_lt
    rw [pieces_cons, next.eq_1, first] at h
    simp only [UInt8.lt_iff_toNat_lt, ← UInt8.toNat_inj, UInt8.reduceToNat] at h
    split at h
    · simp only [List.cons_append, List.nil_append, List.cons.injEq, Option.some.injEq] at h
      obtain ⟨rfl, hrest⟩ := h
      refine ⟨bs, ?_, hrest⟩
      have hv := val_ofNat (n := b.toNat) (.inl (by omega))
      simp only [String.utf8EncodeChar, hv]
      rw [if_pos (by omega), eq_ofNat (b := b) (by omega) rfl]
      rfl
    split at h
    · cases h
    split at h
    · exact pieces_two (by omega) (by omega) h
    split at h
    · exact pieces_three (by omega) (by omega) (by simp) (by simp) h
    split at h
    · exact pieces_three (by omega) (by omega) (by simp) (by simp) h
    split at h
    · exact pieces_three (by omega) (by omega) (by simp; omega) (by simp; omega) h
    split at h
    · exact pieces_four (by omega) (by omega) (by simp) (by simp) h
    split at h
    · exact pieces_four (by omega) (by omega) (by simp; omega) (by simp; omega) h
    split at h
    · exact pieces_four (by omega) (by omega) (by simp) (by simp) h
    · cases h

theorem eq_flatMap_of_pieces {cs : List Char} (h : pieces .ready bs = cs.map some) :
    bs = cs.flatMap String.utf8EncodeChar := by
  induction cs generalizing bs with
  | nil => exact (pieces_eq_nil_iff.1 h).2
  | cons c cs ih =>
    obtain ⟨bs', rfl, hrest⟩ := pieces_ready h
    rw [ih hrest, List.flatMap_cons]

theorem mapM_id_eq_some {α : Type} {os : List (Option α)} {as : List α} :
    os.mapM id = some as ↔ os = as.map some := by
  induction os generalizing as with
  | nil => cases as <;> simp
  | cons o os ih =>
    cases o with
    | none => cases as <;> simp
    | some b =>
      cases as with
      | nil => simp [Option.bind_eq_some_iff]
      | cons a as => simpa [Option.bind_eq_some_iff, ih] using and_comm

/-- Bytes decode to the text that they encode, or to none. -/
theorem decode?_eq_some_iff {s : String} : decode? bs = some s ↔ encode s = bs := by
  constructor
  · intro h
    obtain ⟨cs, hcs, rfl⟩ := Option.map_eq_some_iff.1 h
    rw [encode, String.toList_ofList, ← eq_flatMap_of_pieces (mapM_id_eq_some.1 hcs)]
  · rintro rfl
    refine Option.map_eq_some_iff.2 ⟨s.toList, ?_, String.ofList_toList⟩
    rw [mapM_id_eq_some, encode, pieces_flatMap]

/-- Bytes that read as a text but do not encode it are ill-formed. -/
theorem decode?_eq_none_iff {s : String} (h : decodeLossy bs = s) :
    decode? bs = none ↔ bs ≠ encode s := by
  constructor
  · rintro hn rfl
    rw [decode?_eq_some_iff.2 rfl] at hn
    cases hn
  · intro hne
    rw [Option.eq_none_iff_forall_ne_some]
    intro s' hs'
    obtain rfl := decode?_eq_some_iff.1 hs'
    rw [decodeLossy_encode] at h
    exact hne (congrArg encode h)

end

/-! ### Bytes of characters -/

/-- A byte of a character that is one by itself is all of the character. -/
theorem mem_encodeChar {b : UInt8} (hb : b < 0x80) {c : Char}
    (h : b ∈ String.utf8EncodeChar c) : c = Char.ofNat b.toNat := by
  have hb' : b.toNat < 0x80 := by simpa [UInt8.lt_iff_toNat_lt] using hb
  simp only [String.utf8EncodeChar] at h
  split at h
  · rename_i hc
    obtain rfl := List.mem_singleton.1 h
    rw [toNat_ofNat (by omega)]
    exact (Char.ofNat_toNat c).symm
  -- every other byte is at least `0x80`
  all_goals
    exfalso
    split at h <;> try split at h
    all_goals
      simp only [List.mem_cons, List.not_mem_nil, or_false] at h
      rcases h with rfl | rfl | rfl | rfl
      all_goals
        simp only [UInt8.toNat_ofNat'] at hb'
        omega

theorem mem_encode_iff {b : UInt8} (hb : b < 0x80) {s : String} :
    b ∈ encode s ↔ Char.ofNat b.toNat ∈ s.toList := by
  have hb' : b.toNat < 0x80 := by simpa [UInt8.lt_iff_toNat_lt] using hb
  simp only [encode, List.mem_flatMap]
  constructor
  · rintro ⟨c, hc, h⟩
    exact mem_encodeChar hb h ▸ hc
  · intro h
    refine ⟨_, h, ?_⟩
    have hv : (Char.ofNat b.toNat).val.toNat = b.toNat := by
      rw [Char.ofNat, dif_pos (Or.inl (by omega))]
      rfl
    simp only [String.utf8EncodeChar, hv]
    rw [if_pos (by omega)]
    simp

end JobConfig.Utf8
