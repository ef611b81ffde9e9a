import JobConfig.Path
import JobConfig.Proofs.Utf8
import Mathlib.Data.List.TakeWhile

/-!
# Names at the end of paths

What a path gains by a name that is joined to it: one piece, one component, its file name. The path
that was joined to is the parent, where it ends in a name itself. The parent of any path has its
components but the last, and so names above the end of a path are told by its components.
-/

namespace JobConfig.Path

/-! ### Cutting and gluing -/

theorem split_ne_nil (bs : Bytes) : split bs ≠ [] := by
  cases bs with
  | nil => simp [split]
  | cons b bs =>
    simp only [split]
    split
    · simp
    · split <;> simp

theorem split_of_not_mem {n : Bytes} (h : slash ∉ n) : split n = [n] := by
  induction n with
  | nil => rfl
  | cons b n ih =>
    simp only [List.mem_cons, not_or] at h
    rw [split, if_neg (Ne.symm h.1), ih h.2]

theorem split_append_slash (as bs : Bytes) : split (as ++ slash :: bs) = split as ++ split bs := by
  induction as with
  | nil => simp [split]
  | cons a as ih =>
    rw [List.cons_append, split, split, ih]
    by_cases ha : a = slash
    · rw [if_pos ha, if_pos ha, List.cons_append]
    · rw [if_neg ha, if_neg ha]
      cases hs : split as with
      | nil => exact absurd hs (split_ne_nil as)
      | cons p ps => rfl

theorem glue_split (bs : Bytes) : glue (split bs) = bs := by
  induction bs with
  | nil => rfl
  | cons b bs ih =>
    rw [split]
    by_cases hb : b = slash
    · rw [if_pos hb]
      cases hs : split bs with
      | nil => exact absurd hs (split_ne_nil bs)
      | cons p ps => rw [glue, ← hs, ih, hb, List.nil_append]; simp
    · rw [if_neg hb]
      cases hs : split bs with
      | nil => exact absurd hs (split_ne_nil bs)
      | cons p ps =>
        rw [hs] at ih
        cases ps with
        | nil => simpa [glue] using ih
        | cons q qs => simpa [glue] using ih

theorem split_glue {ps : List Bytes} (hne : ps ≠ []) (h : ∀ n ∈ ps, slash ∉ n) :
    split (glue ps) = ps := by
  induction ps with
  | nil => exact absurd rfl hne
  | cons p ps ih =>
    have hp := split_of_not_mem (h p List.mem_cons_self)
    cases ps with
    | nil => exact hp
    | cons q ps =>
      rw [glue, split_append_slash, hp, ih (by simp) fun n hn => h n (List.mem_cons_of_mem _ hn)]
      · rfl
      · simp

theorem not_mem_of_mem_split {bs n : Bytes} (h : n ∈ split bs) : slash ∉ n := by
  induction bs generalizing n with
  | nil => simp_all [split]
  | cons b bs ih =>
    rw [split] at h
    by_cases hb : b = slash
    · rw [if_pos hb] at h
      rcases List.mem_cons.1 h with rfl | h
      · simp
      · exact ih h
    · rw [if_neg hb] at h
      cases hs : split bs with
      | nil => exact absurd hs (split_ne_nil bs)
      | cons p ps =>
        simp only [hs, List.mem_cons] at h ih
        rcases h with rfl | h
        · simp only [List.mem_cons, not_or]
          exact ⟨Ne.symm hb, ih (.inl rfl)⟩
        · exact ih (.inr h)

theorem not_mem_of_mem_pieces {p : Path} {n : Bytes} (h : n ∈ p.pieces) : slash ∉ n :=
  not_mem_of_mem_split h

/-! ### Names -/

theorem isName_iff {n : Bytes} :
    isName n = true ↔ isBlank n = false ∧ n ≠ [dot, dot] ∧ slash ∉ n := by
  simp [isName, and_assoc]

theorem ne_nil_of_isName {n : Bytes} (h : isName n = true) : n ≠ [] := by
  rintro rfl
  simp [isName, isBlank] at h

/-- Whether a text is a plain component of a path. -/
def IsPlain (name : String) : Prop :=
  name ≠ "" ∧ '/' ∉ name.toList ∧ name ≠ "." ∧ name ≠ ".."

instance (name : String) : Decidable (IsPlain name) := by
  unfold IsPlain
  infer_instance

theorem isName_encode {name : String} : isName (Utf8.encode name) = true ↔ IsPlain name := by
  have h0 : Utf8.encode name = [] ↔ name = "" := Utf8.encode_inj (t := "")
  have h1 : Utf8.encode name = [dot] ↔ name = "." := Utf8.encode_inj (t := ".")
  have h2 : Utf8.encode name = [dot, dot] ↔ name = ".." := Utf8.encode_inj (t := "..")
  have h3 : slash ∈ Utf8.encode name ↔ '/' ∈ name.toList := Utf8.mem_encode_iff (by decide)
  simp only [isName_iff, IsPlain, isBlank, Bool.or_eq_false_iff, beq_eq_false_iff_ne, ne_eq, h0, h1,
    h2, h3]
  constructor
  · rintro ⟨⟨hn, hd⟩, hu, hs⟩
    exact ⟨hn, hs, hd, hu⟩
  · rintro ⟨hn, hs, hd, hu⟩
    exact ⟨⟨hn, hd⟩, hu, hs⟩

theorem ofPiece?_of_isName {n : Bytes} (h : isName n = true) : ofPiece? n = some (.name n) := by
  obtain ⟨hb, hu, -⟩ := isName_iff.1 h
  simp [ofPiece?, hb, hu]

/-! ### Joining a path -/

section Join

variable {p q : Path} {n : Bytes}

/-- The pieces of a path with a relative one joined to it: those of the path, less the blank one
behind a slash at its end, and those of the other. -/
theorem pieces_join_relative (hq : q.isAbsolute = false) (p : Path) :
    ∃ ps, (p.join q).pieces = ps ++ q.pieces ∧
      (p.bytes = [] ∧ ps = [] ∨ p.bytes ≠ [] ∧ (p.pieces = ps ∨ p.pieces = ps ++ [[]])) := by
  rw [join, if_neg (by simp [hq])]
  by_cases h0 : p.bytes = []
  · refine ⟨[], ?_, .inl ⟨h0, rfl⟩⟩
    rw [if_pos (.inl h0), h0]
    rfl
  · by_cases hl : p.bytes.getLast? = some slash
    · obtain ⟨as, has⟩ := List.getLast?_eq_some_iff.1 hl
      refine ⟨split as, ?_, .inr ⟨h0, .inr ?_⟩⟩
      · rw [if_pos (.inr hl), pieces, has, List.append_assoc, List.singleton_append,
          split_append_slash]
        rfl
      · rw [pieces, has, split_append_slash]
        rfl
    · refine ⟨p.pieces, ?_, .inr ⟨h0, .inl rfl⟩⟩
      rw [if_neg (by simp [h0, hl]), pieces, split_append_slash]
      rfl

theorem isAbsolute_join_relative (hq : q.isAbsolute = false) (p : Path) :
    (p.join q).isAbsolute = p.isAbsolute := by
  rw [join, if_neg (by simp [hq])]
  cases hp : p.bytes with
  | nil =>
    rw [if_pos (.inl rfl), List.nil_append, hq, isAbsolute, hp]
    rfl
  | cons b bs => split <;> simp [isAbsolute, hp]

theorem join_relative_ne_nil (hq : q.isAbsolute = false) (hp : p.bytes ≠ []) :
    (p.join q).bytes ≠ [] := by
  rw [join, if_neg (by simp [hq])]
  split <;> simp [hp]

theorem isAbsolute_of_lead (h : q.lead = []) : q.isAbsolute = false := by
  rw [lead] at h
  cases ha : q.isAbsolute with
  | true =>
    rw [ha] at h
    cases h
  | false => rfl

theorem lead_join_relative (hq : q.lead = []) (p : Path) : (p.join q).lead = p.lead := by
  have ha := isAbsolute_of_lead hq
  obtain ⟨ps, hps, h⟩ := pieces_join_relative ha p
  rcases h with ⟨h0, rfl⟩ | ⟨h0, h⟩
  · have hjoin : p.join q = q := by
      rw [join, if_neg (by simp [ha]), if_pos (.inl h0), h0]
      rfl
    rw [hjoin, hq, lead, isAbsolute, pieces, h0]
    rfl
  · obtain ⟨m, ms, rfl⟩ : ∃ m ms, ps = m :: ms := by
      refine List.exists_cons_of_ne_nil ?_
      rintro rfl
      have hglue : glue p.pieces = p.bytes := glue_split _
      rcases h with h | h
      · exact split_ne_nil _ h
      · rw [h] at hglue
        exact h0 hglue.symm
    rw [lead, lead, isAbsolute_join_relative ha, hps]
    rcases h with h | h <;> rw [h] <;> rfl

/-- The components of a path that starts with no root and no point come after those of the path it is
joined to. -/
theorem components_join_relative (hq : q.lead = []) (p : Path) :
    (p.join q).components = p.components ++ q.components := by
  obtain ⟨ps, hps, h⟩ := pieces_join_relative (isAbsolute_of_lead hq) p
  have hb : [([] : Bytes)].filterMap ofPiece? = [] := rfl
  have hp : p.pieces.filterMap ofPiece? = ps.filterMap ofPiece? := by
    rcases h with ⟨h0, rfl⟩ | ⟨-, h | h⟩
    · rw [pieces, h0]
      rfl
    · rw [h]
    · rw [h, List.filterMap_append, hb, List.append_nil]
  rw [components, components, components, lead_join_relative hq, hps, hp, hq, List.filterMap_append,
    List.nil_append, List.append_assoc]

/-! ### Joining a name -/

theorem isAbsolute_of_isName (hn : isName n = true) : (⟨n⟩ : Path).isAbsolute = false := by
  cases n with
  | nil => rfl
  | cons b bs =>
    have := (isName_iff.1 hn).2.2
    simp only [List.mem_cons, not_or] at this
    simpa [isAbsolute] using Ne.symm this.1

theorem pieces_of_isName (hn : isName n = true) : (⟨n⟩ : Path).pieces = [n] :=
  split_of_not_mem (isName_iff.1 hn).2.2

theorem lead_of_isName (hn : isName n = true) : (⟨n⟩ : Path).lead = [] := by
  have hd : n ≠ [dot] := by
    rintro rfl
    simp [isName, isBlank] at hn
  simp [lead, isAbsolute_of_isName hn, pieces_of_isName hn, hd]

theorem join_name (hn : isName n = true) (p : Path) :
    p.join ⟨n⟩ = if p.bytes = [] ∨ p.bytes.getLast? = some slash then ⟨p.bytes ++ n⟩
      else ⟨p.bytes ++ slash :: n⟩ := by
  rw [join, if_neg (by simp [isAbsolute_of_isName hn])]

/-- The pieces of a path with a name joined to it: those of the path, less the blank one behind a
slash at its end, and the name. -/
theorem pieces_join (hn : isName n = true) (p : Path) :
    ∃ ps, (p.join ⟨n⟩).pieces = ps ++ [n] ∧
      (p.bytes = [] ∧ ps = [] ∨ p.bytes ≠ [] ∧ (p.pieces = ps ∨ p.pieces = ps ++ [[]])) := by
  rw [← pieces_of_isName hn]
  exact pieces_join_relative (isAbsolute_of_isName hn) p

theorem join_bytes_ne_nil (hn : isName n = true) (p : Path) : (p.join ⟨n⟩).bytes ≠ [] := by
  have := ne_nil_of_isName hn
  rw [join_name hn]
  split <;> simp [this]

theorem components_join (hn : isName n = true) (p : Path) :
    (p.join ⟨n⟩).components = p.components ++ [.name n] := by
  have hname : (⟨n⟩ : Path).components = [.name n] := by
    rw [components, lead_of_isName hn, pieces_of_isName hn, List.filterMap_cons,
      ofPiece?_of_isName hn]
    rfl
  rw [components_join_relative (lead_of_isName hn), hname]

@[simp] theorem fileName?_join (hn : isName n = true) (p : Path) :
    (p.join ⟨n⟩).fileName? = some n := by
  simp [fileName?, components_join hn]

/-- Whether a path is the path of a text. -/
def IsText (p : Path) : Prop :=
  ∃ s, p = ofString s

theorem IsText.join {name : String} (h : p.IsText) (hn : IsPlain name) :
    (p.join (ofString name)).IsText := by
  obtain ⟨s, rfl⟩ := h
  rw [ofString, ofString, join_name (isName_encode.2 hn)]
  split
  · exact ⟨s ++ name, by rw [ofString, Utf8.encode_append]⟩
  · refine ⟨s ++ ("/" ++ name), ?_⟩
    rw [ofString, Utf8.encode_append, Utf8.encode_append]
    rfl

/-- A path that ends in a name. -/
def EndsInName (p : Path) : Prop :=
  ∃ ps m, p.pieces = ps ++ [m] ∧ isName m = true

theorem endsInName_join (hn : isName n = true) (p : Path) : (p.join ⟨n⟩).EndsInName := by
  obtain ⟨ps, hps, -⟩ := pieces_join hn p
  exact ⟨ps, n, hps, hn⟩

theorem glue_concat (ps : List Bytes) (n : Bytes) : ∃ as, glue (ps ++ [n]) = as ++ n := by
  induction ps with
  | nil => exact ⟨[], rfl⟩
  | cons p ps ih =>
    obtain ⟨as, has⟩ := ih
    obtain ⟨q, qs, hqs⟩ := List.exists_cons_of_ne_nil (show ps ++ [n] ≠ [] by simp)
    rw [hqs] at has
    refine ⟨p ++ slash :: as, ?_⟩
    rw [List.cons_append, hqs, glue, has]
    · simp
    · simp

theorem EndsInName.exists_bytes (hp : p.EndsInName) :
    ∃ as n, p.bytes = as ++ n ∧ isName n = true := by
  obtain ⟨ps, n, hps, hn⟩ := hp
  obtain ⟨as, has⟩ := glue_concat ps n
  rw [← glue_split p.bytes, show split p.bytes = ps ++ [n] from hps]
  exact ⟨as, n, has, hn⟩

theorem EndsInName.bytes_ne_nil (hp : p.EndsInName) : p.bytes ≠ [] := by
  obtain ⟨as, n, has, hn⟩ := hp.exists_bytes
  simp [has, ne_nil_of_isName hn]

/-- A path that ends in a name does not end in a slash. -/
theorem EndsInName.dropSlashes (hp : p.EndsInName) :
    (p.bytes.reverse.dropWhile (· == slash)).reverse = p.bytes := by
  obtain ⟨as, n, has, hn⟩ := hp.exists_bytes
  obtain ⟨bs, b, rfl⟩ : ∃ bs b, n = bs ++ [b] :=
    ⟨_, _, (List.dropLast_concat_getLast (ne_nil_of_isName hn)).symm⟩
  have hb : (b == slash) = false := by
    have hs := (isName_iff.1 hn).2.2
    simp only [List.mem_append, List.mem_singleton, not_or] at hs
    simpa using Ne.symm hs.2
  rw [has]
  simp [hb]

/-- The parent of a name joined to a path that ends in a name is that path. -/
theorem parent?_join (hn : isName n = true) (hp : p.EndsInName) :
    (p.join ⟨n⟩).parent? = some p := by
  obtain ⟨qs, m, hqs, hm⟩ := hp
  obtain ⟨ps, hps, h⟩ := pieces_join hn p
  obtain rfl : ps = qs ++ [m] := by
    rcases h with ⟨h0, rfl⟩ | ⟨-, h | h⟩
    · have : ([[]] : List Bytes) = qs ++ [m] := by
        rw [← hqs, pieces, h0]
        rfl
      have hm' : m = [] := by
        have := congrArg List.getLast? this
        simpa using this.symm
      exact absurd hm' (ne_nil_of_isName hm)
    · rw [← h, hqs]
    · have := hqs.symm.trans h
      have hm' : m = [] := by
        have := congrArg List.getLast? this
        simpa using this
      exact absurd hm' (ne_nil_of_isName hm)
  have hg : glue (qs ++ [m]) = p.bytes := by
    rw [← hqs]
    exact glue_split _
  have hb := (isName_iff.1 hm).1
  simp [parent?, components_join hn, hps, upTo, (isName_iff.1 hn).1, hb, hg]

end Join

/-! ### Parents -/

section Parent

variable {p q : Path} {ps qs : List Bytes} {n : Bytes}

theorem isAbsolute_iff_pieces : p.isAbsolute = true ↔ ∃ m ms, p.pieces = [] :: m :: ms := by
  obtain ⟨bs⟩ := p
  cases bs with
  | nil => simp [isAbsolute, pieces, split]
  | cons b bs =>
    obtain ⟨m, ms, hms⟩ := List.exists_cons_of_ne_nil (split_ne_nil bs)
    by_cases hb : b = slash
    · simp [isAbsolute, pieces, split, hb, hms]
    · simp [isAbsolute, pieces, split, hb, hms]

/-- A path of the first pieces of another, up to one that is not empty, is absolute if the other
is. -/
theorem isAbsolute_of_pieces (hq : q.pieces = ps ++ [n]) (hp : p.pieces = ps ++ n :: qs)
    (hn : n ≠ []) : q.isAbsolute = p.isAbsolute := by
  rw [Bool.eq_iff_iff, isAbsolute_iff_pieces, isAbsolute_iff_pieces, hq, hp]
  cases ps with
  | nil => simp [hn]
  | cons m ms =>
    obtain ⟨a, as, has⟩ := List.exists_cons_of_ne_nil (show ms ++ [n] ≠ [] by simp)
    simp [has, List.append_cons ms]

theorem lead_of_pieces (hq : q.pieces = ps ++ [n]) (hp : p.pieces = ps ++ n :: qs)
    (hn : n ≠ []) : q.lead = p.lead := by
  have hhead : q.pieces.head? = p.pieces.head? := by
    rw [hq, hp]
    cases ps <;> rfl
  rw [lead, lead, isAbsolute_of_pieces hq hp hn, hhead]

theorem lead_cases (p : Path) : p.lead = [.root] ∨ p.lead = [.here] ∨ p.lead = [] := by
  unfold lead
  split
  · exact .inl rfl
  · split
    · exact .inr (.inl rfl)
    · exact .inr (.inr rfl)

theorem ne_nil_of_not_isBlank (h : isBlank n = false) : n ≠ [] := by
  rintro rfl
  cases h

theorem filterMap_ofPiece?_of_blank (h : ∀ n ∈ ps, isBlank n = true) :
    ps.filterMap ofPiece? = [] :=
  List.filterMap_eq_nil_iff.2 fun n hn => if_pos (h n hn)

theorem exists_ofPiece? (h : isBlank n = false) :
    ∃ c, ofPiece? n = some c ∧ c ≠ .root ∧ c ≠ .here := by
  rw [ofPiece?, if_neg (by simp [h])]
  split <;> exact ⟨_, rfl, nofun, nofun⟩

theorem not_isBlank_of_dropWhile {m : Bytes} {ms : List Bytes}
    (h : ps.dropWhile isBlank = m :: ms) : isBlank m = false := by
  have := List.head_dropWhile_not isBlank (l := ps) (by simp [h])
  simpa only [h, List.head_cons] using this

theorem reverse_eq_append_blank (ps : List Bytes) :
    ps.reverse = (ps.dropWhile isBlank).reverse ++ (ps.takeWhile isBlank).reverse ∧
      ∀ b ∈ (ps.takeWhile isBlank).reverse, isBlank b = true := by
  refine ⟨?_, fun b hb => List.mem_takeWhile_imp (List.mem_reverse.1 hb)⟩
  rw [← List.reverse_append, List.takeWhile_append_dropWhile]

/-- The path of the first pieces has the steps of these pieces. -/
theorem components_upTo {reversed : List Bytes} (hp : p.pieces = reversed.reverse ++ qs) :
    (p.upTo reversed).components = p.lead ++ reversed.reverse.filterMap ofPiece? := by
  obtain ⟨hrev, hblank⟩ := reverse_eq_append_blank reversed
  rw [hrev, List.filterMap_append, filterMap_ofPiece?_of_blank hblank, List.append_nil, upTo]
  cases hd : reversed.dropWhile isBlank with
  | nil =>
    -- nothing is left but the step at the start
    rw [List.reverse_nil, List.filterMap_nil, List.append_nil]
    show (if p.isAbsolute then _ else _ : Path).components = p.lead
    unfold lead
    split
    · rfl
    · split <;> rfl
  | cons m ms =>
    rw [hrev, hd, List.reverse_cons, List.append_assoc, List.append_assoc] at hp
    have hq : (⟨glue (m :: ms).reverse⟩ : Path).pieces = ms.reverse ++ [m] := by
      rw [List.reverse_cons]
      refine split_glue (by simp) fun n hn => not_mem_of_mem_pieces (p := p) ?_
      rw [hp, ← List.append_assoc]
      exact List.mem_append_left _ hn
    show (⟨glue (m :: ms).reverse⟩ : Path).components = _
    rw [components, lead_of_pieces hq hp (ne_nil_of_not_isBlank (not_isBlank_of_dropWhile hd)), hq,
      List.reverse_cons]

/-- A path without a parent is empty or the root; any other is its parent and one step. -/
theorem parent?_cases (p : Path) :
    p.parent? = none ∧ (p.components = [] ∨ p.components = [.root]) ∨
      ∃ q c, p.parent? = some q ∧ p.components = q.components ++ [c] := by
  obtain ⟨bs, hsplit, hblank⟩ : ∃ bs, p.pieces =
      (p.pieces.reverse.dropWhile isBlank).reverse ++ bs ∧ ∀ b ∈ bs, isBlank b = true := by
    have h := reverse_eq_append_blank p.pieces.reverse
    rw [List.reverse_reverse] at h
    exact ⟨_, h⟩
  cases hd : p.pieces.reverse.dropWhile isBlank with
  | nil =>
    -- there is at most the step at the start
    rw [hd, List.reverse_nil, List.nil_append] at hsplit
    have hlead : p.components = p.lead := by
      rw [components, hsplit, filterMap_ofPiece?_of_blank hblank, List.append_nil]
    rw [parent?, hlead]
    rcases lead_cases p with h | h | h <;> rw [h]
    · exact .inl ⟨rfl, .inr rfl⟩
    · exact .inr ⟨_, .here, rfl, rfl⟩
    · exact .inl ⟨rfl, .inl rfl⟩
  | cons n rest =>
    obtain ⟨c, hc, hroot, hhere⟩ := exists_ofPiece? (not_isBlank_of_dropWhile hd)
    rw [hd, List.reverse_cons, List.append_assoc] at hsplit
    have hcomponents : p.components = (p.upTo rest).components ++ [c] := by
      rw [components_upTo hsplit, components, hsplit]
      simp [filterMap_ofPiece?_of_blank hblank, hc]
    refine .inr ⟨_, c, ?_, hcomponents⟩
    rw [parent?, hcomponents, List.getLast?_concat, hd]
    cases c with
    | root => exact absurd rfl hroot
    | here => exact absurd rfl hhere
    | up => rfl
    | name m => rfl

theorem fileName?_eq_some_iff : p.fileName? = some n ↔ ∃ cs, p.components = cs ++ [.name n] := by
  rw [← List.getLast?_eq_some_iff, fileName?]
  cases p.components.getLast? with
  | none => simp
  | some c => cases c <;> simp

/-- The parent of a path has these components if the path has them and one more. -/
theorem exists_parent?_iff {cs : List Component} (hcs : cs ≠ []) :
    (∃ q, p.parent? = some q ∧ q.components = cs) ↔ ∃ c, p.components = cs ++ [c] := by
  rcases parent?_cases p with ⟨hq, hc⟩ | ⟨q, d, hq, hc⟩
  · simp only [hq, reduceCtorEq, false_and, exists_false, false_iff]
    rintro ⟨c, hp⟩
    have hlen := congrArg List.length hp
    rcases hc with hc | hc <;> simp [hc, hcs] at hlen
  · simp only [hq, hc, Option.some.injEq, exists_eq_left']
    constructor
    · rintro rfl
      exact ⟨d, rfl⟩
    · rintro ⟨c, hp⟩
      exact (List.append_inj' hp rfl).1

/-- The name of a parent is the one in front of the last component. -/
theorem fileName?_parent?_eq_some_iff :
    p.parent?.bind fileName? = some n ↔ ∃ cs c, p.components = cs ++ [.name n, c] := by
  rw [Option.bind_eq_some_iff]
  constructor
  · rintro ⟨q, hq, hn⟩
    obtain ⟨cs, hcs⟩ := fileName?_eq_some_iff.1 hn
    obtain ⟨c, hc⟩ := (exists_parent?_iff (by simp)).1 ⟨q, hq, hcs⟩
    exact ⟨cs, c, by simpa using hc⟩
  · rintro ⟨cs, c, hc⟩
    rw [List.append_cons] at hc
    obtain ⟨q, hq, hcs⟩ := (exists_parent?_iff (by simp)).2 ⟨c, hc⟩
    exact ⟨q, hq, fileName?_eq_some_iff.2 ⟨cs, hcs⟩⟩

theorem fileName?_parent?_parent?_eq_some_iff : (p.parent?.bind parent?).bind fileName? = some n ↔
    ∃ cs c d, p.components = cs ++ [.name n, c, d] := by
  rw [Option.bind_assoc, Option.bind_eq_some_iff]
  constructor
  · rintro ⟨q, hq, hn⟩
    obtain ⟨cs, c, hcs⟩ := fileName?_parent?_eq_some_iff.1 hn
    obtain ⟨d, hd⟩ := (exists_parent?_iff (by simp)).1 ⟨q, hq, hcs⟩
    exact ⟨cs, c, d, by simpa using hd⟩
  · rintro ⟨cs, c, d, hd⟩
    rw [show cs ++ [.name n, c, d] = cs ++ [.name n, c] ++ [d] by simp] at hd
    obtain ⟨q, hq, hcs⟩ := (exists_parent?_iff (by simp)).2 ⟨d, hd⟩
    exact ⟨q, hq, fileName?_parent?_eq_some_iff.2 ⟨cs, c, hcs⟩⟩

end Parent

end JobConfig.Path
