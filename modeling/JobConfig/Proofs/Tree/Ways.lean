import JobConfig.Proofs.Tree.Links
import Mathlib.Data.List.Infix

/-!
# Ways to a location

What a path without double points resolves to, and what becomes of the directories that are made on
the way to it, where there are no links. Both depend on little: on whether a file is in the way, and
on what stands at the location and above it.
-/

namespace JobConfig

namespace Path

variable {p q : Path} {ps : List Bytes} {n : Bytes}

/-! ### Names of a path and its parent -/

theorem length_placeFrom_le (l : Location) (ps : List Bytes) :
    (placeFrom l ps).length ≤ l.length + (ps.filterMap ofPiece?).length := by
  induction ps generalizing l with
  | nil => simp [placeFrom]
  | cons m ps ih =>
    rw [placeFrom, List.filterMap_cons, ofPiece?]
    split
    · exact ih l
    · split
      · refine (ih _).trans ?_
        simp only [List.length_dropLast, List.length_cons]
        omega
      · refine (ih _).trans ?_
        simp only [List.length_append, List.length_cons, List.length_nil]
        omega

theorem length_place_le (p : Path) : p.place.length ≤ p.components.length := by
  have h := length_placeFrom_le [] p.pieces
  rw [components, List.length_append]
  exact h.trans (by simp)

theorem placeFrom_isBlank (l : Location) (h : ∀ m ∈ ps, isBlank m = true) : placeFrom l ps = l := by
  induction ps with
  | nil => rfl
  | cons m ps ih =>
    obtain ⟨hm, hps⟩ := List.forall_mem_cons.1 h
    rw [placeFrom, if_pos hm, ih hps]

theorem EndsInName.exists_place (hp : p.EndsInName) :
    ∃ l n, p.place = l ++ [n] ∧ isName n = true := by
  obtain ⟨ps, n, hps, hn⟩ := hp
  exact ⟨_, n, place_of_pieces hps hn, hn⟩

/-- Whether a path has no name: it is a slash, a point or nothing. -/
def IsBare (p : Path) : Prop :=
  p = ⟨[slash]⟩ ∨ p = ⟨[]⟩ ∨ p = ⟨[dot]⟩

theorem IsBare.place (h : p.IsBare) : p.place = [] := by
  rcases h with rfl | rfl | rfl <;> rfl

/-- The first pieces of a path that does not lead up: they lead where they did, and the path of them
ends in a name unless it has none. -/
theorem upTo_spec (h : [dot, dot] ∉ p.pieces) {reversed qs : List Bytes}
    (hp : p.pieces = reversed.reverse ++ qs) :
    (p.upTo reversed).place = placeFrom [] reversed.reverse ∧
      ((p.upTo reversed).EndsInName ∨ (p.upTo reversed).IsBare) := by
  obtain ⟨hrev, hbs⟩ := reverse_eq_append_blank reversed
  rw [upTo]
  cases hd : reversed.dropWhile isBlank with
  | nil =>
    rw [hd, List.reverse_nil, List.nil_append] at hrev
    rw [hrev, placeFrom_isBlank [] hbs]
    cases ha : p.isAbsolute with
    | true => exact ⟨rfl, .inr (.inl rfl)⟩
    | false =>
      simp only [Bool.false_eq_true, if_false]
      split
      · exact ⟨rfl, .inr (.inr (.inl rfl))⟩
      · exact ⟨rfl, .inr (.inr (.inr rfl))⟩
  | cons m ms =>
    have hm : isBlank m = false := not_isBlank_of_dropWhile hd
    rw [hd, List.reverse_cons] at hrev
    rw [hrev, List.append_assoc] at hp
    have hmem : m ∈ p.pieces := by simp [hp]
    have hname : isName m = true :=
      isName_iff.2 ⟨hm, fun heq => h (heq ▸ hmem), not_mem_of_mem_pieces hmem⟩
    have hq : (⟨glue (m :: ms).reverse⟩ : Path).pieces = ms.reverse ++ [m] := by
      rw [List.reverse_cons]
      refine split_glue (by simp) fun n hn => not_mem_of_mem_pieces (p := p) ?_
      exact hp ▸ List.mem_append_left _ hn
    refine ⟨?_, .inl ⟨_, m, hq, hname⟩⟩
    rw [hrev, placeFrom_append, placeFrom_isBlank _ hbs, place, hq]

/-- A path that ends in a name has a parent, which lies one step above. It ends in a name too, if it
has one. -/
theorem exists_parent? (hp : p.EndsInName) (h : [dot, dot] ∉ p.pieces) :
    ∃ q, p.parent? = some q ∧ q.place = p.place.dropLast ∧ [dot, dot] ∉ q.pieces ∧
      (q.EndsInName ∨ q.IsBare) := by
  obtain ⟨ps, n, hps, hn⟩ := hp
  have hparent : p.parent? = some (p.upTo ps.reverse) := by
    simp [parent?, components, hps, ofPiece?_of_isName hn, (isName_iff.1 hn).1]
  have hcut : p.pieces = ps.reverse.reverse ++ [n] := by rw [List.reverse_reverse, hps]
  obtain ⟨hplace, hend⟩ := upTo_spec h hcut
  refine ⟨_, hparent, ?_, (place_upTo h hcut).2, hend⟩
  rw [hplace, place_of_pieces hps hn, List.dropLast_concat, List.reverse_reverse]

end Path

namespace FileTree

open JobConfig.Path (dot isBlank isName placeFrom)

variable {t t' : FileTree} {follow : Bool} {p q : Path} {l k : Location} {e : Entry}
  {ps : List Bytes} {n : Bytes}

/-! ### Files in the way -/

/-- Whether there is a file at a location or above it. -/
def Blocked (t : FileTree) (l : Location) : Prop :=
  ∃ k ∈ l.inits, t.fileAt? k ≠ none

instance (t : FileTree) (l : Location) : Decidable (t.Blocked l) := by
  unfold Blocked
  infer_instance

theorem blocked_iff : t.Blocked l ↔ ∃ k, k <+: l ∧ t.fileAt? k ≠ none := by
  simp only [Blocked, List.mem_inits]

theorem Blocked.mono (h : t.Blocked k) (hk : k <+: l) : t.Blocked l := by
  obtain ⟨j, hj, hf⟩ := blocked_iff.1 h
  exact blocked_iff.2 ⟨j, hj.trans hk, hf⟩

/-- What is above an entry are directories. -/
theorem directory_above (h : t.get? l = some e) (hk : k <+: l) (hne : k ≠ l) :
    t.get? k = some .directory := by
  obtain ⟨names, rfl⟩ := hk
  exact (directory_of_get?_append h fun h0 => hne (by rw [h0, List.append_nil])).2.2

theorem directory_of_prefix_directory (h : t.get? l = some .directory) (hk : k <+: l) :
    t.get? k = some .directory := by
  by_cases hkl : k = l
  · rw [hkl, h]
  · exact directory_above h hk hkl

theorem fileAt?_of_directory (h : t.get? l = some .directory) : t.fileAt? l = none := by
  rw [fileAt?, h]

theorem not_blocked_of_directory (h : t.get? l = some .directory) : ¬t.Blocked l := by
  rw [blocked_iff]
  rintro ⟨k, hk, hf⟩
  exact hf (fileAt?_of_directory (directory_of_prefix_directory h hk))

theorem blocked_concat_iff : t.Blocked (l ++ [n]) ↔ t.Blocked l ∨ t.fileAt? (l ++ [n]) ≠ none := by
  simp only [blocked_iff, List.prefix_concat_iff, or_and_right, exists_or, exists_eq_left]
  exact or_comm

/-- Where nothing is, nothing below is in the way. -/
theorem blocked_append_iff (h : t.get? l = none) (names : Location) :
    t.Blocked (l ++ names) ↔ t.Blocked l := by
  refine ⟨fun hb => ?_, fun hb => hb.mono (List.prefix_append l names)⟩
  obtain ⟨k, hk, hf⟩ := blocked_iff.1 hb
  rcases List.prefix_or_prefix_of_prefix hk (List.prefix_append l names) with hkl | ⟨ms, rfl⟩
  · exact blocked_iff.2 ⟨k, hkl, hf⟩
  · rw [fileAt?, get?_append_eq_none h] at hf
    exact absurd rfl hf

/-! ### Paths that end in a name -/

/-- What a path resolves to that ends in the last name of a location. -/
def reach (t : FileTree) (l : Location) : Except Refusal Spot :=
  if t.Blocked l.dropLast then .error .notDirectory
  else if t.get? l.dropLast = some .directory then .ok (t.spot l)
  else .error .notFound

theorem walk_concat (ht : t.LinkFree) (hn : isName n = true) (h : [dot, dot] ∉ ps)
    (hl : t.get? l = some .directory) :
    t.walk l (ps ++ [n]) = t.reach (placeFrom l ps ++ [n]) := by
  induction ps generalizing l with
  | nil =>
    rw [List.nil_append, walk_name ht hn, reach, placeFrom, List.dropLast_concat,
      if_neg (not_blocked_of_directory hl), if_pos hl]
  | cons m ps ih =>
    simp only [List.mem_cons, not_or] at h
    by_cases hm : t.Enters l m
    · have hplace : placeFrom l (m :: ps) = placeFrom (placeFrom l [m]) ps :=
        Path.placeFrom_append l [m] ps
      have hd : t.get? (placeFrom l [m]) = some .directory := by
        rw [placeFrom, if_neg (Ne.symm h.1)]
        split
        · exact hl
        · rename_i hb
          exact (hm.resolve_left hb).resolve_left (Ne.symm h.1)
      rw [List.cons_append, walk_cons hm, hplace, ih h.2 hd]
    · -- the way ends at something else than a directory, which is above the location
      have hps : (ps ++ [n]).all (· == []) = false := by simp [Path.ne_nil_of_isName hn]
      simp only [Enters, not_or] at hm
      obtain ⟨names, hnames⟩ := placeFrom_eq_append h.2 (l ++ [m])
      have hplace : placeFrom l (m :: ps) = l ++ [m] ++ names := by
        rw [placeFrom, if_neg hm.1, if_neg hm.2.1, hnames]
      have hno : t.get? (l ++ [m] ++ names) ≠ some .directory := fun hd =>
        hm.2.2 (directory_of_prefix_directory hd (List.prefix_append _ _))
      rw [List.cons_append, walk_of_not_enters ht (by simpa only [Enters, not_or]) hps, reach,
        hplace, List.dropLast_concat, if_neg hno]
      cases hg : t.get? (l ++ [m]) with
      | none =>
        have hfree : ¬t.Blocked (l ++ [m] ++ names) := by
          rw [blocked_append_iff hg, blocked_concat_iff]
          simp [not_blocked_of_directory hl, fileAt?, hg]
        rw [if_pos rfl, if_neg hfree]
      | some e =>
        have hfile : t.Blocked (l ++ [m] ++ names) := by
          refine blocked_iff.2 ⟨l ++ [m], List.prefix_append _ _, ?_⟩
          cases e with
          | file c => simp [fileAt?, hg]
          | directory => exact absurd hg hm.2.2
          | link target => exact absurd hg (ht _ target)
        rw [if_neg (by simp), if_pos hfile]

/-- What a path resolves to that ends in a name and does not lead up. -/
theorem resolve_eq_reach (ht : t.LinkFree) (hp : p.EndsInName) (h : [dot, dot] ∉ p.pieces)
    (follow : Bool) : t.resolve follow p = t.reach p.place := by
  have hb := hp.bytes_ne_nil
  obtain ⟨ps, n, hps, hn⟩ := hp
  rw [hps, List.mem_append, not_or] at h
  rw [resolve_eq_walk ht, if_neg hb, Path.place_of_pieces hps hn, hps,
    walk_concat ht hn h.1 (get?_root t)]

/-! ### Making directories -/

/-- What keeps a directory from being made, if anything does. -/
def hindrance? (t : FileTree) (p : Path) : Option Refusal :=
  if t.Blocked p.place.dropLast then some .notDirectory
  else if t.Blocked p.place then some .alreadyExists
  else none

theorem hindrance?_eq_none_iff : t.hindrance? p = none ↔ ¬t.Blocked p.place := by
  have hmono : t.Blocked p.place.dropLast → t.Blocked p.place := fun hb =>
    hb.mono (List.dropLast_prefix _)
  rw [hindrance?]
  by_cases hb : t.Blocked p.place
  · simp only [hb, if_true, not_true]
    split <;> simp
  · simp [hb, mt hmono hb]

section Make

variable (ht : t.LinkFree) (hp : p.EndsInName) (h : [dot, dot] ∉ p.pieces)

include ht hp h

/-- What becomes of one directory is decided by what its path resolves to. -/
theorem ensureDirectory_eq : t.ensureDirectory p =
    if t.Blocked p.place.dropLast then .error .notDirectory
    else if t.get? p.place.dropLast ≠ some .directory then .error .notFound
    else
      match t.get? p.place with
      | none => .ok (t.put p.place .directory)
      | some .directory => .ok t
      | some _ => .error .alreadyExists := by
  have hr := resolve_eq_reach ht hp h
  rw [ensureDirectory, Storage.makeDirectory_sound, makeDirectory, hp.dropSlashes, isDirectory,
    lookup, hr, hr]
  simp only [reach, ne_eq, ite_not]
  by_cases hb : t.Blocked p.place.dropLast
  · simp [hb]
  simp only [hb, if_false]
  by_cases hd : t.get? p.place.dropLast = some .directory
  · simp only [hd, if_true, spot]
    cases t.get? p.place with
    | none => rfl
    | some e => cases e <;> rfl
  · simp [hd]

end Make

/-- What making a directory and its parents comes to: it fails where something hinders it, and then
makes none of them; or it makes those that are not there. -/
def Makes (t : FileTree) (p : Path) (r : Except Refusal Unit × FileTree) : Prop :=
  match t.hindrance? p with
  | some e => r = (.error e, t)
  | none => r.1 = .ok () ∧
    ∀ l, r.2.get? l = if l <+: p.place then some .directory else t.get? l

theorem get?_put_directory {d : Location} (hn : isName n = true) (hd : t.get? d = some .directory)
    (hnone : t.get? (d ++ [n]) = none) (l : Location) :
    (t.put (d ++ [n]) .directory).get? l =
      if l <+: d ++ [n] then some .directory else t.get? l := by
  have ha : t.Admits (d ++ [n]) := by
    rw [get?_of_ne_nil (by simp)] at hnone
    exact ⟨by simpa using hn, by simpa using hd, by simp [hnone]⟩
  rw [get?_put ha]
  by_cases hl : l = d ++ [n]
  · rw [if_pos hl, if_pos (hl ▸ List.prefix_rfl)]
  · rw [if_neg hl]
    split
    · rename_i hpre
      exact directory_of_prefix_directory hd ((List.prefix_concat_iff.1 hpre).resolve_left hl)
    · rfl

/-- A directory in one that is there is made, unless there is a file. -/
theorem makes_of_directory (ht : t.LinkFree) (hp : p.EndsInName) (h : [dot, dot] ∉ p.pieces)
    (hd : t.get? p.place.dropLast = some .directory) (ps : List Path) :
    t.Makes p (t.ensureAll (p :: ps)) := by
  obtain ⟨d, n, hplace, hn⟩ := hp.exists_place
  have hensure := ensureDirectory_eq ht hp h
  rw [hplace, List.dropLast_concat] at hd hensure
  rw [if_neg (not_blocked_of_directory hd), if_neg (by simp [hd])] at hensure
  rw [Makes, hindrance?, ensureAll, hplace, List.dropLast_concat,
    if_neg (not_blocked_of_directory hd)]
  have hblocked : t.Blocked (d ++ [n]) ↔ t.fileAt? (d ++ [n]) ≠ none := by
    rw [blocked_concat_iff, or_iff_right (not_blocked_of_directory hd)]
  simp only [hblocked, fileAt?]
  cases hg : t.get? (d ++ [n]) with
  | none =>
    rw [hg] at hensure
    simpa [hensure] using get?_put_directory hn hd hg
  | some e =>
    rw [hg] at hensure
    cases e with
    | file c => simp [hensure]
    | directory =>
      have hall : ∀ l, t.get? l = if l <+: d ++ [n] then some .directory else t.get? l := by
        intro l
        split
        · rename_i hl
          exact directory_of_prefix_directory hg hl
        · rfl
      simpa [hensure] using hall
    | link target => exact absurd hg (ht _ target)

/-- A directory is made after the one above it. -/
theorem makes_of_parent (ht : t.LinkFree) (hp : p.EndsInName) (h : [dot, dot] ∉ p.pieces)
    (hb : ¬t.Blocked p.place.dropLast) (hd : t.get? p.place.dropLast ≠ some .directory)
    {ps : List Path} (hok : (t.ensureAll ps).1 = .ok ()) (hget : ∀ l, (t.ensureAll ps).2.get? l =
      if l <+: p.place.dropLast then some .directory else t.get? l) :
    t.Makes p (t.ensureAll (p :: ps)) := by
  obtain ⟨d, n, hplace, hn⟩ := hp.exists_place
  have hext := ensureAll_extends t ps .sound
  cases hps : t.ensureAll ps with
  | mk r t₁ =>
    rw [hps] at hok hext
    simp only [hps] at hget
    obtain rfl : r = .ok () := hok
    have hfirst := ensureDirectory_eq ht hp h
    have hlast := ensureDirectory_eq (hext.linkFree ht) hp h
    rw [hplace, List.dropLast_concat] at hb hd hget hfirst hlast
    have hnone : t.get? (d ++ [n]) = none := by
      rw [Option.eq_none_iff_forall_ne_some]
      intro e he
      exact hd (directory_above he (List.prefix_append d [n]) (by simp))
    have hd₁ : t₁.get? d = some .directory := by rw [hget, if_pos List.prefix_rfl]
    have hlen : ¬d ++ [n] <+: d := fun hpre => by
      have := hpre.length_le
      rw [List.length_append, List.length_singleton] at this
      omega
    have hnone₁ : t₁.get? (d ++ [n]) = none := by rw [hget, if_neg hlen, hnone]
    rw [if_neg hb, if_pos hd] at hfirst
    rw [if_neg (not_blocked_of_directory hd₁), if_neg (by simp [hd₁]), hnone₁] at hlast
    have hfree : ¬t.Blocked (d ++ [n]) := by simp [blocked_concat_iff, hb, fileAt?, hnone]
    rw [Makes, hindrance?, ensureAll, hplace, List.dropLast_concat, if_neg hb, if_neg hfree, hfirst]
    simp only [hps, hlast]
    refine ⟨trivial, fun l => ?_⟩
    rw [get?_put_directory hn hd₁ hnone₁, hget]
    by_cases hl : l <+: d ++ [n]
    · rw [if_pos hl, if_pos hl]
    · rw [if_neg hl, if_neg hl, if_neg fun hld => hl (hld.trans (List.prefix_append d [n]))]

theorem makes_ensureAll (ht : t.LinkFree) (hp : p.EndsInName) (h : [dot, dot] ∉ p.pieces)
    {fuel : Nat} (hfuel : p.place.length ≤ fuel) :
    t.Makes p (t.ensureAll (ancestors fuel p)) := by
  induction fuel generalizing p with
  | zero =>
    obtain ⟨d, n, hplace, -⟩ := hp.exists_place
    simp [hplace] at hfuel
  | succ fuel ih =>
    obtain ⟨q, hq, hqp, hqd, hqe⟩ := Path.exists_parent? hp h
    have hqf : q.place.length ≤ fuel := by
      rw [hqp, List.length_dropLast]
      omega
    have hfirst := ensureDirectory_eq ht hp h
    rw [ancestors, if_neg hp.bytes_ne_nil, hq]
    by_cases hb : t.Blocked p.place.dropLast
    · rw [if_pos hb] at hfirst
      rw [Makes, hindrance?, if_pos hb, ensureAll, hfirst]
    by_cases hd : t.get? p.place.dropLast = some .directory
    · exact makes_of_directory ht hp h hd _
    · have hqe' : q.EndsInName := hqe.resolve_right fun hbare =>
        hd (by rw [← hqp, hbare.place, get?_root])
      have hqm := ih hqe' hqd hqf
      rw [Makes, hindrance?, hqp, if_neg hb,
        if_neg fun hbd => hb (hbd.mono (List.dropLast_prefix _))] at hqm
      exact makes_of_parent ht hp h hb hd hqm.1 hqm.2

/-- What making a directory comes to, if its path ends in a name and does not lead up. -/
theorem makes_makeDirectories (ht : t.LinkFree) (hp : p.EndsInName) (h : [dot, dot] ∉ p.pieces) :
    t.Makes p (t.makeDirectories p) :=
  makes_ensureAll ht hp h (p.length_place_le.trans (Nat.le_succ _))

end FileTree

end JobConfig
