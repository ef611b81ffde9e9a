import JobConfig.Proofs.Utf8
import JobConfig.Proofs.Write

/-!
# Paths as they are shown

A path that is shown as a text, and read as a path again, has the same pieces, each as it is shown:
the decoder takes a slash for what it is also behind ill-formed bytes, and never finds one that is
not there. So the file beside a file lies in the directory of the file, as that is shown.
-/

namespace JobConfig

/-! ### Decoding part by part -/

namespace Utf8

variable {b : UInt8} {as bs : Bytes} {s : State} {rest : List (Option Char)}

/-- Whether a state waits for a byte that is no character by itself. -/
def State.IsOpen : State → Prop
  | .ready => True
  | .inside _ _ lo _ => 0x80 ≤ lo

theorem isOpen_first (b : UInt8) : (first b).2.IsOpen := by
  unfold first
  repeat' split
  all_goals simp [State.IsOpen]

theorem isOpen_next (s : State) (b : UInt8) : (next s b).2.IsOpen := by
  cases s with
  | ready => exact isOpen_first b
  | inside value left lo hi =>
    rw [next]
    split
    · simp only
      split <;> simp [State.IsOpen]
    · exact isOpen_first b

theorem first_of_lt (hb : b < 0x80) : first b = ([some (Char.ofNat b.toNat)], .ready) := by
  rw [first, if_pos hb]

/-- A character of one byte cuts what is decoded, even inside another character. -/
theorem pieces_append_cons (hb : b < 0x80) (hs : s.IsOpen) : pieces s (as ++ b :: bs) =
    pieces s as ++ some (Char.ofNat b.toNat) :: pieces .ready bs := by
  induction as generalizing s with
  | nil =>
    rw [List.nil_append, pieces_cons]
    cases s with
    | ready =>
      rw [next, first_of_lt hb]
      rfl
    | inside value left lo hi =>
      have hlo : ¬(lo ≤ b ∧ b ≤ hi) := fun h =>
        absurd (UInt8.le_trans hs h.1) (UInt8.not_le.2 hb)
      rw [next, if_neg hlo, first_of_lt hb]
      rfl
  | cons a as ih =>
    rw [List.cons_append, pieces_cons, pieces_cons, ih (isOpen_next s a), List.append_assoc]

theorem first_cases (b : UInt8) : (first b).1 = [] ∨ ∃ o, first b = ([o], .ready) := by
  unfold first
  repeat' split
  all_goals simp

/-- Behind what is ill-formed the decoder is at some byte again. -/
theorem exists_suffix_of_pieces (h : pieces s bs = none :: rest) :
    ∃ bs', bs' <:+ bs ∧ pieces .ready bs' = rest := by
  induction bs generalizing s with
  | nil =>
    cases s with
    | ready => cases h
    | inside value left lo hi => exact ⟨[], List.suffix_rfl, (List.cons.inj h).2⟩
  | cons b bs ih =>
    have hgo : ∀ {s'}, pieces s' bs = none :: rest →
        ∃ bs', bs' <:+ b :: bs ∧ pieces .ready bs' = rest := by
      intro s' h
      obtain ⟨bs', hbs', hrest⟩ := ih h
      exact ⟨bs', hbs'.trans (List.suffix_cons b bs), hrest⟩
    rw [pieces_cons] at h
    cases s with
    | ready =>
      rw [next] at h
      rcases first_cases b with hnil | ⟨o, ho⟩
      · rw [hnil] at h
        exact hgo h
      · rw [ho] at h
        exact ⟨bs, List.suffix_cons b bs, (List.cons.inj h).2⟩
    | inside value left lo hi =>
      rw [next] at h
      split at h
      · simp only at h
        split at h
        · cases h
        · exact hgo h
      · -- the byte is read anew, as between characters
        exact ⟨b :: bs, List.suffix_rfl, (List.cons.inj h).2⟩

/-- What is decoded as a character stands there. -/
theorem subset_of_mem_pieces {c : Char} (h : some c ∈ pieces .ready bs) :
    String.utf8EncodeChar c ⊆ bs := by
  generalize hps : pieces .ready bs = ps at h
  induction ps generalizing bs with
  | nil => cases h
  | cons o ps ih =>
    cases o with
    | none =>
      obtain ⟨bs', hbs', hrest⟩ := exists_suffix_of_pieces hps
      have hmem : some c ∈ ps := by simpa using h
      exact List.Subset.trans (ih hrest hmem) hbs'.subset
    | some c' =>
      obtain ⟨bs', rfl, hrest⟩ := pieces_ready hps
      rcases List.mem_cons.1 h with heq | hmem
      · rw [Option.some.injEq] at heq
        rw [heq]
        exact List.subset_append_left _ _
      · exact List.Subset.trans (ih hrest hmem) (List.subset_append_right _ _)

/-- Only the bytes of a text decode to it, unless it has the character for what is ill-formed. -/
theorem decodeLossy_eq_iff {t : String} (ht : '\uFFFD' ∉ t.toList) :
    decodeLossy bs = t ↔ bs = encode t := by
  constructor
  · intro h
    have hlist : (pieces .ready bs).map (·.getD '\uFFFD') = t.toList := by
      rw [← h, decodeLossy, String.toList_ofList]
    refine eq_flatMap_of_pieces ?_
    rw [← hlist, List.map_map]
    refine (List.map_id' _).symm.trans (List.map_congr_left fun o ho => ?_)
    cases o with
    | none => exact absurd (hlist ▸ List.mem_map.2 ⟨none, ho, rfl⟩) ht
    | some c => rfl
  · rintro rfl
    exact decodeLossy_encode t

/-! ### What is shown of bytes -/

/-- The bytes of what is shown of a byte string. -/
def shown (bs : Bytes) : Bytes :=
  encode (decodeLossy bs)

@[simp] theorem shown_encode (t : String) : shown (encode t) = encode t := by
  rw [shown, decodeLossy_encode]

theorem shown_eq_encode_iff {t : String} (ht : '\uFFFD' ∉ t.toList) :
    shown bs = encode t ↔ bs = encode t := by
  rw [shown, encode_inj, decodeLossy_eq_iff ht]

/-- What is shown is cut where the bytes are. -/
theorem shown_append_cons (hb : b < 0x80) (as bs : Bytes) :
    shown (as ++ b :: bs) = shown as ++ b :: shown bs := by
  have hb' : b.toNat < 0x80 := by simpa [UInt8.lt_iff_toNat_lt] using hb
  have hval : (Char.ofNat b.toNat).val.toNat = b.toNat := val_ofNat (.inl (by omega))
  have hbyte : String.utf8EncodeChar (Char.ofNat b.toNat) = [b] := by
    simp only [String.utf8EncodeChar, hval]
    rw [if_pos (by omega), eq_ofNat (by omega) rfl]
  rw [shown, decodeLossy, pieces_append_cons hb (show State.ready.IsOpen from trivial)]
  simp [encode, shown, decodeLossy, hbyte]

/-- A character of one byte that is shown stands among the bytes. -/
theorem mem_of_mem_shown (hb : b < 0x80) (h : b ∈ shown bs) : b ∈ bs := by
  have hc := (mem_encode_iff hb).1 h
  rw [decodeLossy, String.toList_ofList, List.mem_map] at hc
  obtain ⟨o, ho, hchar⟩ := hc
  have hself : b ∈ encode (String.ofList [Char.ofNat b.toNat]) := (mem_encode_iff hb).2 (by simp)
  cases o with
  | none =>
    have hb' : b.toNat < 0x80 := by simpa [UInt8.lt_iff_toNat_lt] using hb
    have hval : (Char.ofNat b.toNat).val.toNat = b.toNat := val_ofNat (.inl (by omega))
    rw [← hchar] at hval
    have : ('\uFFFD' : Char).val.toNat = 0xfffd := by decide
    simp only [Option.getD_none] at hval
    omega
  | some c =>
    rw [← hchar] at hself
    exact subset_of_mem_pieces ho (by simpa [encode] using hself)

end Utf8

/-! ### What is shown of paths -/

namespace Path

open Utf8 (shown)

variable {p q : Path} {n : Bytes} {ps : List Bytes}

theorem split_shown (bs : Bytes) : split (shown bs) = (split bs).map shown := by
  have hslash : ∀ {n : Bytes}, slash ∉ n → split (shown n) = [shown n] := fun hn =>
    split_of_not_mem fun h => hn (Utf8.mem_of_mem_shown (by decide) h)
  have hglue : ∀ ps : List Bytes, ps ≠ [] → (∀ n ∈ ps, slash ∉ n) →
      split (shown (glue ps)) = ps.map shown := by
    intro ps hne hps
    induction ps with
    | nil => exact absurd rfl hne
    | cons n ps ih =>
      obtain ⟨hn, hps⟩ := List.forall_mem_cons.1 hps
      cases ps with
      | nil => exact hslash hn
      | cons m ps =>
        rw [glue, Utf8.shown_append_cons (by decide), split_append_slash, hslash hn,
          ih (by simp) hps]
        · rfl
        · simp
  rw [← glue_split bs, hglue _ (split_ne_nil bs) fun n hn => not_mem_of_mem_split hn, glue_split]

theorem isBlank_shown (n : Bytes) : isBlank (shown n) = isBlank n := by
  have h : ∀ t : String, '\uFFFD' ∉ t.toList →
      (shown n == Utf8.encode t) = (n == Utf8.encode t) := fun t ht => by
    rw [Bool.eq_iff_iff, beq_iff_eq, beq_iff_eq, Utf8.shown_eq_encode_iff ht]
  exact congrArg₂ or (h "" (by decide)) (h "." (by decide))

theorem shown_eq_dots_iff : shown n = [dot, dot] ↔ n = [dot, dot] :=
  Utf8.shown_eq_encode_iff (t := "..") (by decide)

/-- The pieces of a text are shown as they are. -/
theorem IsText.map_shown_pieces (hp : p.IsText) : p.pieces.map shown = p.pieces := by
  obtain ⟨s, rfl⟩ := hp
  rw [pieces, ← split_shown, ofString, Utf8.shown_encode]

theorem placeFrom_map_shown (l : Location) (ps : List Bytes) :
    placeFrom (l.map shown) (ps.map shown) = (placeFrom l ps).map shown := by
  induction ps generalizing l with
  | nil => rfl
  | cons n ps ih =>
    rw [List.map_cons, placeFrom, placeFrom, isBlank_shown]
    simp only [shown_eq_dots_iff]
    split
    · exact ih l
    · split
      · rw [← List.map_dropLast, ih]
      · rw [← List.map_singleton, ← List.map_append, ih]

end Path

/-! ### The file beside a file -/

namespace FileTree

open JobConfig.Path (dot isName)
open Utf8 (shown)

variable {p q : Path} {n : Bytes} {ps : List Bytes}

theorem pieces_besides_of_pieces (hp : p.pieces = ps ++ [n]) :
    (besides p).pieces = ps.map shown ++ [shown n ++ temporarySuffix] := by
  obtain ⟨qs, m, hs, hsuffix⟩ :=
    split_append_of_not_mem (show Path.slash ∉ temporarySuffix by decide) (shown p.bytes)
  have hp' : Path.split p.bytes = ps ++ [n] := hp
  rw [Path.split_shown, hp', List.map_append, List.map_singleton] at hs
  obtain ⟨rfl, hm⟩ := List.append_inj' hs rfl
  rw [besides, Path.ofString, Path.pieces, Utf8.encode_append]
  simp only [List.cons.injEq, and_true] at hm
  rw [hm]
  exact hsuffix

/-- The file beside a file lies in the directory that is shown. -/
theorem place_besides_join (hn : isName n = true) (q : Path) :
    (besides (q.join ⟨n⟩)).place = q.place.map shown ++ [shown n ++ temporarySuffix] := by
  obtain ⟨ps, hps, -⟩ := Path.pieces_join hn q
  have hplace : q.place = Path.placeFrom [] ps := by
    have h := Path.place_join hn q
    rw [Path.place_of_pieces hps hn] at h
    exact (List.append_inj' h rfl).1.symm
  have hname : isName (shown n ++ temporarySuffix) = true :=
    isName_temporary fun h => (Path.isName_iff.1 hn).2.2 (Utf8.mem_of_mem_shown (by decide) h)
  rw [Path.place_of_pieces (pieces_besides_of_pieces hps) hname, hplace,
    ← Path.placeFrom_map_shown]
  rfl

/-- The path of the file beside a file does not lead up, if that of the file does not. -/
theorem dots_not_mem_besides (hp : p.EndsInName) (h : [dot, dot] ∉ p.pieces) :
    [dot, dot] ∉ (besides p).pieces := by
  obtain ⟨ps, n, hps, hn⟩ := hp
  rw [hps, List.mem_append, not_or] at h
  rw [pieces_besides_of_pieces hps, List.mem_append, not_or]
  constructor
  · intro hmem
    obtain ⟨m, hm, hdots⟩ := List.mem_map.1 hmem
    exact h.1 (Path.shown_eq_dots_iff.1 hdots ▸ hm)
  · intro hmem
    have hlen := congrArg List.length (List.mem_singleton.1 hmem)
    rw [List.length_append, show temporarySuffix.length = 13 by decide] at hlen
    simp at hlen

end FileTree

end JobConfig
