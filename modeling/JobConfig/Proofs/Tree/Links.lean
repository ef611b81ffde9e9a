import JobConfig.Proofs.Tree.Parents
import Mathlib.Data.List.TakeWhile

/-!
# Where paths lead through links

A path that leads to a directory, through whatever links, leads there in every tree that keeps the
directories and the links, and what is joined to it goes on from there. So a directory that is made
with its parents was there before, or there was nothing at its location.
-/

namespace JobConfig

/-! ### Parents -/

namespace Path

theorem parent?_eq_upTo {p q : Path} (hq : p.parent? = some q) (hq0 : q.bytes ≠ []) :
    ∃ name rest, p.pieces.reverse.dropWhile isBlank = name :: rest ∧ q = p.upTo rest := by
  rw [parent?] at hq
  split at hq
  · cases hq
  · cases hq
  · cases hq
    exact absurd rfl hq0
  · rename_i c hhere hroot hlast
    cases hq
    cases hd : p.pieces.reverse.dropWhile isBlank with
    | nil =>
      -- without a piece that names something there is at most the point at the start
      have hnone : p.pieces.filterMap ofPiece? = [] :=
        filterMap_ofPiece?_of_blank fun n hn =>
          List.dropWhile_eq_nil_iff.1 hd n (List.mem_reverse.2 hn)
      rw [components, hnone, List.append_nil, lead] at hlast
      split at hlast
      · exact absurd (Option.some.inj hlast).symm hhere
      split at hlast
      · exact absurd (Option.some.inj hlast).symm hroot
      · cases hlast
    | cons name rest => exact ⟨name, rest, rfl, rfl⟩

/-- The pieces of the path of the first pieces, which may be blank where these are. -/
theorem pieces_upTo {p : Path} {reversed qs : List Bytes}
    (hp : p.pieces = reversed.reverse ++ qs) (hne : (p.upTo reversed).bytes ≠ []) :
    ∃ as bs, reversed.reverse = as ++ bs ∧ (∀ b ∈ bs, isBlank b = true) ∧
      ((p.upTo reversed).pieces = as ∨
        as = [] ∧ ∀ b ∈ (p.upTo reversed).pieces, isBlank b = true) := by
  obtain ⟨hsplit, hblank⟩ := reverse_eq_append_blank reversed
  refine ⟨_, _, hsplit, hblank, ?_⟩
  rw [upTo] at hne ⊢
  cases hd : reversed.dropWhile isBlank with
  | nil =>
    simp only [hd] at hne ⊢
    refine .inr ⟨rfl, ?_⟩
    have hroot : ∀ b ∈ (⟨[slash]⟩ : Path).pieces, isBlank b = true := by decide
    have hpoint : ∀ b ∈ (⟨[dot]⟩ : Path).pieces, isBlank b = true := by decide
    split at hne
    · rw [if_pos ‹_›]
      exact hroot
    · rw [if_neg ‹_›]
      split at hne
      · exact absurd rfl hne
      · rw [if_neg ‹_›]
        exact hpoint
  | cons name rest =>
    refine .inl (split_glue (by simp) fun n hn => not_mem_of_mem_pieces (p := p) ?_)
    rw [hp, hsplit, hd]
    exact List.mem_append_left _ (List.mem_append_left _ hn)

/-- A path that does not lead up is its parent with a name joined to it, but for blank pieces. -/
theorem pieces_parent? {p q : Path} (hup : [dot, dot] ∉ p.pieces)
    (hq : p.parent? = some q) (hq0 : q.bytes ≠ []) : ∃ as bs name cs,
      p.pieces = (as ++ bs) ++ name :: cs ∧ isName name = true ∧ (∀ b ∈ bs, isBlank b = true) ∧
      (∀ c ∈ cs, isBlank c = true) ∧
      (q.pieces = as ∨ as = [] ∧ ∀ b ∈ q.pieces, isBlank b = true) := by
  obtain ⟨name, rest, hrest, rfl⟩ := parent?_eq_upTo hq hq0
  obtain ⟨hsplit, hcs⟩ := reverse_eq_append_blank p.pieces.reverse
  have hpieces : p.pieces =
      rest.reverse ++ name :: (p.pieces.reverse.takeWhile isBlank).reverse := by
    rwa [List.reverse_reverse, hrest, List.reverse_cons, List.append_assoc] at hsplit
  have hmem : name ∈ p.pieces := by
    rw [hpieces]
    simp
  have hblank : isBlank name = false := not_isBlank_of_dropWhile hrest
  obtain ⟨as, bs, hab, hbs, hpq⟩ := pieces_upTo hpieces hq0
  exact ⟨as, bs, name, _, hab ▸ hpieces,
    isName_iff.2 ⟨hblank, fun h => hup (h ▸ hmem), not_mem_of_mem_pieces hmem⟩, hbs, hcs, hpq⟩

end Path

open JobConfig.Path (slash dot isBlank isName)

namespace FileTree

variable {t t' : FileTree} {follow follow' : Bool} {n m : Nat} {l k : Location} {p : Path}
  {ps qs : List Bytes} {s : Spot} {disk : Storage}

/-! ### Ways -/

/-- Whether all directories and links of a tree are those of another. -/
structure KeepsWays (t t' : FileTree) : Prop where
  directories : t.KeepsDirectories t'
  links : t'.linkAt? = t.linkAt?

theorem KeepsWays.refl (t : FileTree) : t.KeepsWays t := ⟨fun _ h => h, rfl⟩

theorem KeepsWays.trans {t'' : FileTree} (h : t.KeepsWays t') (h' : t'.KeepsWays t'') :
    t.KeepsWays t'' :=
  ⟨fun l hl => h'.directories l (h.directories l hl), h'.links.trans h.links⟩

theorem KeepsWays.linkFree (h : t.KeepsWays t') (ht : t.LinkFree) : t'.LinkFree := by
  intro l target hl
  rw [← linkAt?_eq_some_iff, h.links, ht.linkAt?] at hl
  cases hl

theorem KeepsWays.link (h : t.KeepsWays t') {target : Path} (hl : t.get? l = some (.link target)) :
    t'.get? l = some (.link target) := by
  rw [← linkAt?_eq_some_iff, h.links, linkAt?_eq_some_iff, hl]

theorem Extends.get?_eq_none (h : t'.Extends t) (hl : t'.get? l = none) : t.get? l = none := by
  rcases h l with heq | ⟨hnone, -⟩
  · rw [← heq, hl]
  · exact hnone

theorem Extends.linkAt? (h : t'.Extends t) : t'.linkAt? = t.linkAt? := by
  funext l
  rcases h l with heq | ⟨hnone, hdir⟩
  · rw [FileTree.linkAt?, heq, FileTree.linkAt?]
  · rw [FileTree.linkAt?, hdir, FileTree.linkAt?, hnone]

/-- Below nothing there is nothing. -/
theorem get?_append_eq_none (h : t.get? l = none) (names : Location) :
    t.get? (l ++ names) = none := by
  by_cases hn : names = []
  · rw [hn, List.append_nil, h]
  · rw [Option.eq_none_iff_forall_ne_some]
    intro e he
    rw [(directory_of_get?_append he hn).2.2] at h
    cases h

theorem Extends.keepsWays (h : t'.Extends t) : t.KeepsWays t' :=
  ⟨h.keepsDirectories, h.linkAt?⟩

theorem keepsWays_put {e : Entry} (ha : t.Admits l) (hno : t.linkAt? l = none)
    (he : ∀ target, e ≠ .link target) : t.KeepsWays (t.put l e) := by
  refine ⟨keepsDirectories_put ha, funext fun k => ?_⟩
  by_cases hk : k = l
  · subst hk
    rw [hno, linkAt?, get?_put ha, if_pos rfl]
    cases e with
    | link target => exact absurd rfl (he target)
    | file c => rfl
    | directory => rfl
  · rw [linkAt?, get?_put ha, if_neg hk, linkAt?]

theorem keepsWays_remove (hd : t.get? l ≠ some .directory) (hno : t.linkAt? l = none) :
    t.KeepsWays (t.remove l) := by
  refine ⟨keepsDirectories_remove hd, funext fun k => ?_⟩
  by_cases hk : k = l
  · subst hk
    rw [hno, linkAt?, get?_remove hd, if_pos rfl]
  · rw [linkAt?, get?_remove_of_ne hk, linkAt?]

/-- Whether pieces lead from a directory through at most `n` links to a directory, from where `m`
more may be followed. A link at the end is followed if `follow`. -/
inductive Passes (t : FileTree) (follow : Bool) :
    (n : Nat) → Location → List Bytes → (m : Nat) → Location → Prop
  | nil {n : Nat} {l : Location} : Passes t follow n l [] n l
  | blank {n m : Nat} {l k : Location} {p : Bytes} {ps : List Bytes} (hb : isBlank p = true)
      (rest : Passes t follow n l ps m k) : Passes t follow n l (p :: ps) m k
  | up {n m : Nat} {l k : Location} {ps : List Bytes} (rest : Passes t follow n l.dropLast ps m k) :
      Passes t follow n l ([dot, dot] :: ps) m k
  | down {n m : Nat} {l k : Location} {p : Bytes} {ps : List Bytes} (hb : isBlank p = false)
      (hu : p ≠ [dot, dot]) (hd : t.get? (l ++ [p]) = some .directory)
      (rest : Passes t follow n (l ++ [p]) ps m k) : Passes t follow n l (p :: ps) m k
  | link {n m : Nat} {l k : Location} {p : Bytes} {ps : List Bytes} {target : Path}
      (hb : isBlank p = false) (hu : p ≠ [dot, dot])
      (hl : t.get? (l ++ [p]) = some (.link target))
      (ht : target.bytes ≠ []) (hend : ps = [] → follow = true)
      (rest : Passes t follow n (target.startIn l) (target.pieces ++ ps) m k) :
      Passes t follow (n + 1) l (p :: ps) m k

/-- What follows on the way to a directory goes on from there. -/
theorem Passes.step_append (h : t.Passes follow n l ps m k)
    (hf : qs = [] → follow = true → follow' = true) :
    t.step follow' n l (ps ++ qs) = t.step follow' m k qs := by
  induction h with
  | nil => rfl
  | blank hb rest ih => rw [List.cons_append, step_cons, if_pos hb, ih]
  | up rest ih =>
    rw [List.cons_append, step_cons, if_neg (by decide), if_pos rfl, ih]
  | down hb hu hd rest ih =>
    rw [List.cons_append, step_cons, if_neg (by simp [hb]), if_neg hu]
    simp only [hd]
    exact ih
  | @link n m l k p ps target hb hu hl ht hend rest ih =>
    rw [List.cons_append, step_cons, if_neg (by simp [hb]), if_neg hu]
    have hgo : ¬(ps ++ qs = [] ∧ (!follow') = true) := by
      rintro ⟨hnil, hno⟩
      obtain ⟨hps, hqs⟩ := List.append_eq_nil_iff.1 hnil
      rw [hf hqs (hend hps)] at hno
      cases hno
    simp only [hl, if_neg hgo, if_neg ht, ← List.append_assoc]
    exact ih

theorem Passes.step (h : t.Passes follow n l ps m k) (hf : follow = true → follow' = true) :
    t.step follow' n l ps = .ok (.at k .directory) := by
  have happ : t.step follow' n l (ps ++ []) = t.step follow' m k [] := h.step_append fun _ => hf
  rwa [List.append_nil, step_nil] at happ

/-- If a link at the end is not followed, the way to a directory ends there or at that link. -/
theorem Passes.step_false (h : t.Passes true n l ps m k) :
    t.step false n l ps = .ok (.at k .directory) ∨
      ∃ j target, t.step false n l ps = .ok (.at j (.link target)) := by
  induction h with
  | nil => exact .inl (step_nil _ _)
  | blank hb rest ih => rwa [step_cons, if_pos hb]
  | up rest ih => rwa [step_cons, if_neg (by decide), if_pos rfl]
  | down hb hu hd rest ih =>
    rw [step_cons, if_neg (by simp [hb]), if_neg hu]
    simpa only [hd] using ih
  | @link n m l k p ps target hb hu hl ht hend rest ih =>
    rw [step_cons, if_neg (by simp [hb]), if_neg hu]
    simp only [hl, if_neg ht]
    split
    · exact .inr ⟨_, _, rfl⟩
    · exact ih

theorem passes_blank (n : Nat) (l : Location) (h : ∀ p ∈ ps, isBlank p = true) :
    t.Passes follow n l ps n l := by
  induction ps with
  | nil => exact .nil
  | cons p ps ih =>
    exact .blank (h p List.mem_cons_self) (ih fun q hq => h q (List.mem_cons_of_mem _ hq))

/-- Whatever pieces lead to, they pass to it in a tree where it is a directory. -/
theorem Goes.passes (hw : t.KeepsWays t') (h : t.Goes follow n l ps s)
    (hs : s = .at s.location .directory ∨ t'.get? s.location = some .directory) :
    ∃ m, t'.Passes follow n l ps m s.location := by
  induction h with
  | nil => exact ⟨_, .nil⟩
  | blank hb rest ih => exact (ih hs).imp fun m hm => .blank hb hm
  | up rest ih => exact (ih hs).imp fun m hm => .up hm
  | down hb hu hd rest ih => exact (ih hs).imp fun m hm => .down hb hu (hw.directories _ hd) hm
  | vacant hb hu hnone hend =>
    refine ⟨_, .down hb hu (hs.resolve_left (by simp)) (passes_blank _ _ fun q hq => ?_)⟩
    rw [beq_iff_eq.1 (List.all_eq_true.1 hend q hq)]
    rfl
  | file hb hu hc => exact ⟨_, .down hb hu (hs.resolve_left (by simp)) .nil⟩
  | stop hb hu hl hf =>
    have hd := hs.resolve_left (by simp)
    rw [Spot.location, hw.link hl] at hd
    cases hd
  | link hb hu hl ht hend rest ih =>
    exact (ih hs).imp fun m hm => .link hb hu (hw.link hl) ht hend hm

theorem passes_of_directory (h : t.step follow n l ps = .ok (.at k .directory)) :
    ∃ m, t.Passes follow n l ps m k :=
  (goes_of_step h).passes (.refl t) (.inl rfl)

/-- What comes before a piece that names something leads to a directory, and so does what comes
before the end of a path to a directory. -/
theorem Goes.passes_of_append {as : List Bytes} (h : t.Goes follow n l as s) (has : ps ++ qs = as)
    (hs : qs.all (· == []) = false ∨ ∃ j, s = .at j .directory) :
    ∃ m k, t.Passes true n l ps m k := by
  -- at what is no directory only blank pieces are left
  replace hs : ∀ bs : List Bytes, (bs ++ qs).all (· == []) = true → ∃ j, s = .at j .directory := by
    intro bs hbs
    rw [List.all_append, Bool.and_eq_true] at hbs
    exact hs.resolve_left (by rw [hbs.2]; decide)
  induction h generalizing ps with
  | nil =>
    obtain ⟨rfl, -⟩ := List.append_eq_nil_iff.1 has
    exact ⟨_, _, .nil⟩
  | blank hb rest ih =>
    obtain ⟨rfl, -⟩ | ⟨ps, rfl, hps⟩ := List.append_eq_cons_iff.1 has
    · exact ⟨_, _, .nil⟩
    · obtain ⟨m, k, hm⟩ := ih hps.symm hs
      exact ⟨m, k, .blank hb hm⟩
  | up rest ih =>
    obtain ⟨rfl, -⟩ | ⟨ps, rfl, hps⟩ := List.append_eq_cons_iff.1 has
    · exact ⟨_, _, .nil⟩
    · obtain ⟨m, k, hm⟩ := ih hps.symm hs
      exact ⟨m, k, .up hm⟩
  | down hb hu hd rest ih =>
    obtain ⟨rfl, -⟩ | ⟨ps, rfl, hps⟩ := List.append_eq_cons_iff.1 has
    · exact ⟨_, _, .nil⟩
    · obtain ⟨m, k, hm⟩ := ih hps.symm hs
      exact ⟨m, k, .down hb hu hd hm⟩
  | vacant hb hu hnone hend =>
    obtain ⟨rfl, -⟩ | ⟨ps, rfl, rfl⟩ := List.append_eq_cons_iff.1 has
    · exact ⟨_, _, .nil⟩
    · obtain ⟨j, hj⟩ := hs ps hend
      cases hj
  | file hb hu hc =>
    obtain ⟨rfl, -⟩ | ⟨ps, rfl, hps⟩ := List.append_eq_cons_iff.1 has
    · exact ⟨_, _, .nil⟩
    · obtain ⟨j, hj⟩ := hs ps (by rw [← hps]; rfl)
      cases hj
  | stop hb hu hl hf =>
    obtain ⟨rfl, -⟩ | ⟨ps, rfl, hps⟩ := List.append_eq_cons_iff.1 has
    · exact ⟨_, _, .nil⟩
    · obtain ⟨j, hj⟩ := hs ps (by rw [← hps]; rfl)
      cases hj
  | link hb hu hl ht hend rest ih =>
    obtain ⟨rfl, -⟩ | ⟨ps, rfl, rfl⟩ := List.append_eq_cons_iff.1 has
    · exact ⟨_, _, .nil⟩
    · obtain ⟨m, k, hm⟩ := ih (List.append_assoc _ _ _) hs
      exact ⟨m, k, .link hb hu hl ht (fun _ => rfl) hm⟩

/-- Blank pieces at the end of a path to a directory do not matter. -/
theorem step_append_blank_iff {bs : List Bytes} (hbs : ∀ b ∈ bs, isBlank b = true) :
    t.step true n l (ps ++ bs) = .ok (.at k .directory) ↔
      t.step true n l ps = .ok (.at k .directory) := by
  constructor
  · intro h
    obtain ⟨m, j, hm⟩ := (goes_of_step h).passes_of_append rfl (.inr ⟨k, rfl⟩)
    rw [hm.step_append fun _ => id, (passes_blank m j hbs).step id] at h
    cases h
    exact hm.step id
  · intro h
    obtain ⟨m, hm⟩ := passes_of_directory h
    rw [hm.step_append fun _ => id]
    exact (passes_blank m k hbs).step id

/-! ### Leading -/

section Leads

variable {links : Location → Option Path}

theorem Leads.true_of_false (h : Leads links false n l ps k) (hno : links k = none) :
    Leads links true n l ps k := by
  induction h with
  | nil => exact .nil
  | blank hb rest ih => exact .blank hb (ih hno)
  | up rest ih => exact .up (ih hno)
  | down hb hu hl rest ih => exact .down hb hu hl (ih hno)
  | stop hb hu hl hf =>
    rw [hl] at hno
    cases hno
  | link hb hu hl hend rest ih => exact .link hb hu hl (fun _ => rfl) (ih hno)

theorem Leads.exists_false (h : Leads links true n l ps k) : ∃ j, Leads links false n l ps j := by
  induction h with
  | nil => exact ⟨_, .nil⟩
  | blank hb rest ih => exact ih.imp fun j hj => .blank hb hj
  | up rest ih => exact ih.imp fun j hj => .up hj
  | down hb hu hl rest ih => exact ih.imp fun j hj => .down hb hu hl hj
  | stop hb hu hl hf => cases hf
  | @link n l k p ps target hb hu hl hend rest ih =>
    by_cases hps : ps = []
    · subst hps
      exact ⟨_, .stop hb hu hl rfl⟩
    · exact ih.imp fun j hj => .link hb hu hl (fun h => absurd h hps) hj

theorem Leads.eq_concat {name : Bytes} (hn : isName name = true) (h : Leads links false n l qs k)
    (hqs : ps ++ [name] = qs) : ∃ j, k = j ++ [name] := by
  obtain ⟨hb, hu, -⟩ := Path.isName_iff.1 hn
  induction h generalizing ps with
  | nil => simp at hqs
  | blank hblank rest ih =>
    obtain ⟨rfl, heq⟩ | ⟨ps, rfl, heq⟩ := List.append_eq_cons_iff.1 hqs
    · cases heq
      rw [hb] at hblank
      cases hblank
    · exact ih heq.symm
  | up rest ih =>
    obtain ⟨rfl, heq⟩ | ⟨ps, rfl, heq⟩ := List.append_eq_cons_iff.1 hqs
    · cases heq
      exact absurd rfl hu
    · exact ih heq.symm
  | down hb' hu' hno rest ih =>
    obtain ⟨rfl, heq⟩ | ⟨ps, rfl, heq⟩ := List.append_eq_cons_iff.1 hqs
    · cases heq
      cases rest
      exact ⟨_, rfl⟩
    · exact ih heq.symm
  | stop hb' hu' hl hf =>
    obtain ⟨rfl, heq⟩ | ⟨ps, rfl, heq⟩ := List.append_eq_cons_iff.1 hqs
    · cases heq
      exact ⟨_, rfl⟩
    · simp at heq
  | link hb' hu' hl hend rest ih =>
    obtain ⟨rfl, heq⟩ | ⟨ps, rfl, rfl⟩ := List.append_eq_cons_iff.1 hqs
    · cases heq
      cases hend rfl
    · exact ih (List.append_assoc _ _ _)

end Leads

/-- A path that does not end at a link leads to the same location if links at its end are
followed. -/
theorem leads_true_of_false (hk : t.leads false p = some k) (hno : t.linkAt? k = none) :
    t.leads true p = some k := by
  rw [leads, leadsFrom_eq_some_iff] at hk ⊢
  exact hk.true_of_false hno

/-- A path that leads anywhere if links at its end are followed leads somewhere if not. -/
theorem exists_leads_false (hk : t.leads true p = some k) : ∃ j, t.leads false p = some j := by
  simp only [leads, leadsFrom_eq_some_iff] at hk ⊢
  exact hk.exists_false

/-- A path that ends in a name leads to an entry of that name, if the link that it may end at is not
followed. -/
theorem location_of_leads_false {name : Bytes} (hp : p.pieces = ps ++ [name])
    (hn : isName name = true) (hk : t.leads false p = some k) : ∃ j, k = j ++ [name] := by
  rw [leads, leadsFrom_eq_some_iff] at hk
  exact hk.eq_concat hn hp.symm

/-! ### Resolving -/

/-- Whatever a path resolves to, it resolves to in a tree where that is a directory. -/
theorem resolve_of_keepsWays (hw : t.KeepsWays t') (h : t.resolve follow p = .ok s)
    (hs : t'.get? s.location = some .directory) (hf : follow = true → follow' = true) :
    t'.resolve follow' p = .ok (.at s.location .directory) := by
  rw [resolve] at h ⊢
  split at h
  · cases h
  · rename_i hp
    rw [if_neg hp]
    obtain ⟨m, hm⟩ := (goes_of_step h).passes hw (.inr hs)
    exact hm.step hf

theorem KeepsWays.resolve (hw : t.KeepsWays t')
    (h : t.resolve follow p = .ok (.at k .directory)) (hf : follow = true → follow' = true) :
    t'.resolve follow' p = .ok (.at k .directory) :=
  resolve_of_keepsWays hw h (hw.directories _ (leads_of_resolve h).2) hf

theorem resolve_false_of_directory (h : t.resolve true p = .ok (.at k .directory)) :
    t.resolve false p = .ok (.at k .directory) ∨
      ∃ j target, t.resolve false p = .ok (.at j (.link target)) := by
  rw [resolve] at h ⊢
  split at h
  · cases h
  · rename_i hp
    rw [if_neg hp]
    obtain ⟨m, hm⟩ := passes_of_directory h
    exact hm.step_false

/-- A path ends at what is no directory and no link. -/
theorem step_end {name : Bytes} (hb : isBlank name = false) (hu : name ≠ [dot, dot])
    (hno : t.linkAt? (l ++ [name]) = none) (hd : t.get? (l ++ [name]) ≠ some .directory)
    (follow : Bool) (n : Nat) (cs : List Bytes) :
    t.step follow n l (name :: cs) =
      match t.get? (l ++ [name]) with
      | some e => if cs = [] then .ok (.at (l ++ [name]) e) else .error .notDirectory
      | none => if cs.all (· == []) then .ok (.vacant (l ++ [name])) else .error .notFound := by
  rw [step_cons, if_neg (by simp [hb]), if_neg hu]
  cases hg : t.get? (l ++ [name]) with
  | none => rfl
  | some e =>
    cases e with
    | directory => exact absurd hg hd
    | file c => rfl
    | link target =>
      rw [linkAt?_eq_some_iff.2 hg] at hno
      cases hno

/-- A name leads to the entry of that name, if it is no link. -/
theorem step_name {name : Bytes} (hn : isName name = true)
    (hno : t.linkAt? (l ++ [name]) = none) (n : Nat) {cs : List Bytes}
    (hcs : t.get? (l ++ [name]) = some .directory ∧ (∀ c ∈ cs, isBlank c = true) ∨ cs = []) :
    t.step follow n l (name :: cs) = .ok (t.spot (l ++ [name])) := by
  obtain ⟨hb, hu, -⟩ := Path.isName_iff.1 hn
  by_cases hd : t.get? (l ++ [name]) = some .directory
  · have hblank : ∀ c ∈ cs, isBlank c = true := by
      rcases hcs with ⟨-, hcs⟩ | rfl
      · exact hcs
      · simp
    have hpasses : t.Passes follow n (l ++ [name]) cs n (l ++ [name]) := passes_blank n _ hblank
    rw [step_cons, if_neg (by simp [hb]), if_neg hu, spot, hd]
    exact hpasses.step id
  · obtain rfl : cs = [] := hcs.resolve_left fun h => hd h.1
    rw [step_end hb hu hno hd, spot]
    cases t.get? (l ++ [name]) <;> rfl

theorem get?_of_step_name {name : Bytes} (hn : isName name = true)
    (hno : t.linkAt? (l ++ [name]) = none) {n : Nat} {cs : List Bytes}
    (h : t.step follow n l (name :: cs) = .ok (.at k .directory)) :
    t.get? (l ++ [name]) = some .directory := by
  obtain ⟨hb, hu, -⟩ := Path.isName_iff.1 hn
  rw [step_cons, if_neg (by simp [hb]), if_neg hu] at h
  split at h
  · split at h <;> cases h
  · assumption
  · split at h <;> cases h
  · rename_i target hl
    rw [linkAt?_eq_some_iff.2 hl] at hno
    cases hno

section Join

variable {name : Bytes}

/-- The pieces before a relative path that is joined to a path lead to the same directories as the
path, which may have one more, the blank one behind a slash at its end. -/
theorem exists_pieces_before {q : Path} (hq : q.isAbsolute = false) (hp : p.bytes ≠ []) : ∃ ps,
    (p.join q).pieces = ps ++ q.pieces ∧ ∀ (t : FileTree) (n : Nat) (k : Location),
      t.step true n [] p.pieces = .ok (.at k .directory) ↔
        t.step true n [] ps = .ok (.at k .directory) := by
  obtain ⟨ps, hps, h⟩ := Path.pieces_join_relative hq p
  refine ⟨ps, hps, fun t n k => ?_⟩
  rcases h with ⟨h0, -⟩ | ⟨-, h | h⟩
  · exact absurd h0 hp
  · rw [h]
  · rw [h]
    exact step_append_blank_iff (by decide)

/-- A relative path joined to a path to a directory leads on from there. -/
theorem resolve_join_relative {q : Path} (hq : q.isAbsolute = false)
    (h : t.resolve true p = .ok (.at k .directory)) :
    ∃ m, ∀ follow, t.resolve follow (p.join q) = t.step follow m k q.pieces := by
  rw [resolve] at h
  split at h
  · cases h
  · rename_i hp
    obtain ⟨ps, hps, hsame⟩ := exists_pieces_before hq hp
    obtain ⟨m, hm⟩ := passes_of_directory ((hsame t _ k).1 h)
    have hne : q.pieces ≠ [] := Path.split_ne_nil q.bytes
    refine ⟨m, fun follow => ?_⟩
    rw [resolve, if_neg (Path.join_relative_ne_nil hq hp), hps,
      hm.step_append fun hnil => absurd hnil hne]

/-- A name joined to a path to a directory leads to the entry of that name, if it is no link. -/
theorem resolve_join_directory (hn : isName name = true)
    (h : t.resolve true p = .ok (.at k .directory)) (hno : t.linkAt? (k ++ [name]) = none)
    (follow : Bool) : t.resolve follow (p.join ⟨name⟩) = .ok (t.spot (k ++ [name])) := by
  obtain ⟨m, hm⟩ := resolve_join_relative (Path.isAbsolute_of_isName hn) h
  rw [hm, Path.pieces_of_isName hn, step_name hn hno m (.inr rfl)]

/-- A path that leads anywhere after a name is joined to it is one to a directory. -/
theorem directory_of_resolve_join (hn : isName name = true) (hp : p.bytes ≠ [])
    (h : t.resolve follow (p.join ⟨name⟩) = .ok s) :
    ∃ k, t.resolve true p = .ok (.at k .directory) := by
  rw [resolve] at h
  split at h
  · cases h
  · obtain ⟨ps, hps, hsame⟩ := exists_pieces_before (Path.isAbsolute_of_isName hn) hp
    rw [hps, Path.pieces_of_isName hn] at h
    have hne : [name].all (· == []) = false := by simp [Path.ne_nil_of_isName hn]
    obtain ⟨m, k, hm⟩ := (goes_of_step h).passes_of_append rfl (.inl hne)
    exact ⟨k, by rw [resolve, if_neg hp, (hsame t _ k).2 (hm.step id)]⟩

end Join

/-! ### Making directories -/

theorem isDirectory_iff : t.isDirectory p = true ↔
    ∃ k, t.resolve true p = .ok (.at k .directory) := by
  rw [isDirectory, lookup]
  cases t.resolve true p with
  | error r => simp
  | ok s =>
    cases s with
    | vacant l => simp
    | «at» l e => cases e <;> simp

/-- A slash at the end of a path to a directory does not matter. -/
theorem resolve_append_slash {bs : Bytes} (h : t.resolve follow ⟨bs⟩ = .ok (.at k .directory)) :
    t.resolve follow ⟨bs ++ [slash]⟩ = .ok (.at k .directory) := by
  rw [resolve] at h ⊢
  split at h
  · cases h
  · obtain ⟨m, hm⟩ := passes_of_directory h
    rw [if_neg (by simp), Path.pieces, Path.split_append_slash]
    exact (hm.step_append fun _ => id).trans ((passes_blank m k (by decide)).step id)

/-- A path that leads to nothing but for slashes at its end leads to the directory that is made
there. -/
theorem resolve_of_dropSlashes (hw : t.KeepsWays t')
    (h : t.resolve false ⟨(p.bytes.reverse.dropWhile (· == slash)).reverse⟩ = .ok (.vacant k))
    (hk : t'.get? k = some .directory) (follow : Bool) :
    t'.resolve follow p = .ok (.at k .directory) := by
  obtain ⟨bs⟩ := p
  induction bs using List.reverseRecOn with
  | nil => exact resolve_of_keepsWays hw h hk nofun
  | append_singleton bs b ih =>
    simp only [List.reverse_append, List.reverse_singleton, List.singleton_append] at h
    by_cases hb : b = slash
    · rw [hb, List.dropWhile_cons_of_pos (by simp)] at h
      rw [hb]
      exact resolve_append_slash (ih h)
    · rw [List.dropWhile_cons_of_neg (by simpa using hb), List.reverse_cons,
        List.reverse_reverse] at h
      exact resolve_of_keepsWays hw h hk (by simp)

/-- A directory that is there now was there before, or there was nothing. -/
theorem ensureDirectory_cases (h : t.ensureDirectory p disk = .ok t') :
    (t' = t ∧ ∃ k, t.resolve true p = .ok (.at k .directory)) ∨
      ∃ k, t.get? k = none ∧ ∀ follow, t'.resolve follow p = .ok (.at k .directory) := by
  rw [ensureDirectory] at h
  split at h
  · split at h
    · rename_i hd
      cases h
      exact .inl ⟨rfl, isDirectory_iff.1 hd⟩
    · cases h
  · replace h := Storage.of_grant h
    have hw := (makeDirectory_ok h).keepsWays
    rw [makeDirectory] at h
    split at h
    · cases h
    · rename_i k hr
      cases h
      obtain ⟨-, hnone, ha⟩ := leads_of_resolve hr
      have hk : (t.put k .directory).get? k = some .directory := by rw [get?_put ha, if_pos rfl]
      exact .inr ⟨k, hnone, resolve_of_dropSlashes hw hr hk⟩
    · cases h

theorem ensureAll_cons_ok {ps : List Path} (h : t.ensureAll (p :: ps) disk = (.ok (), t')) :
    t.ensureDirectory p disk = .ok t' ∨ t.ensureDirectory p disk = .error .notFound ∧
      ∃ t₁, t.ensureAll ps disk = (.ok (), t₁) ∧ t₁.ensureDirectory p disk = .ok t' := by
  rw [ensureAll] at h
  split at h
  · rename_i h₁
    cases h
    exact .inl h₁
  · rename_i h₁
    split at h
    · cases h
    · rename_i t₁ h₂
      split at h
      · rename_i t₂ h₃
        cases h
        exact .inr ⟨h₁, t₁, h₂, h₃⟩
      · cases h
  · cases h

/-- A directory that is made with its parents is there. -/
theorem isDirectory_ensureAll {ps : List Path} (h : t.ensureAll (p :: ps) disk = (.ok (), t')) :
    ∃ k, t'.resolve true p = .ok (.at k .directory) := by
  have hlast : ∃ t₁ : FileTree, t₁.ensureDirectory p disk = .ok t' := by
    rcases ensureAll_cons_ok h with h | ⟨-, t₁, -, h⟩
    · exact ⟨t, h⟩
    · exact ⟨t₁, h⟩
  obtain ⟨t₁, h₁⟩ := hlast
  rcases ensureDirectory_cases h₁ with ⟨rfl, hd⟩ | ⟨k, -, hk⟩
  · exact hd
  · exact ⟨k, hk true⟩

theorem makeDirectories_ok {n : Bytes} (hn : isName n = true)
    (h : t.makeDirectories (p.join ⟨n⟩) disk = (.ok (), t')) :
    t'.isDirectory (p.join ⟨n⟩) = true := by
  obtain ⟨ps, hps⟩ := ancestors_join hn p (p.join ⟨n⟩).components.length
  rw [makeDirectories, hps] at h
  exact isDirectory_iff.2 (isDirectory_ensureAll h)

/-- Where the parent of a path leads, the pieces before the name lead too. -/
theorem passes_of_parent {q : Path} {as bs : List Bytes} (hbs : ∀ b ∈ bs, isBlank b = true)
    (hq : q.pieces = as ∨ as = [] ∧ ∀ b ∈ q.pieces, isBlank b = true)
    (h : t.resolve follow q = .ok (.at k .directory)) :
    ∃ m, t.Passes follow maxLinks [] (as ++ bs) m k := by
  rw [resolve] at h
  split at h
  · cases h
  · rcases hq with rfl | ⟨rfl, hq⟩
    · obtain ⟨m, hm⟩ := passes_of_directory h
      refine passes_of_directory ((hm.step_append fun _ => id).trans ?_)
      exact (passes_blank m k hbs).step id
    · have hpasses : t.Passes follow maxLinks [] q.pieces maxLinks [] := passes_blank _ _ hq
      rw [hpasses.step id] at h
      cases h
      exact ⟨_, passes_blank _ _ hbs⟩

/-- A path to a directory leads to an entry of the directory of its parent, if that is no link. -/
theorem resolve_of_parent? {q : Path} {j : Location} (hup : [dot, dot] ∉ p.pieces)
    (hq : p.parent? = some q) (hk : t.resolve true q = .ok (.at k .directory))
    (hno : ∀ name, t.linkAt? (k ++ [name]) = none)
    (h : t.resolve true p = .ok (.at j .directory)) :
    (∃ name, j = k ++ [name]) ∧ ∀ follow, t.resolve follow p = .ok (.at j .directory) := by
  have hq0 : q.bytes ≠ [] := by
    intro h0
    rw [resolve, if_pos h0] at hk
    cases hk
  rw [resolve] at h
  split at h
  · cases h
  · rename_i hp
    obtain ⟨as, bs, name, cs, hpieces, hn, hbs, hcs, hqp⟩ :=
      Path.pieces_parent? hup hq hq0
    obtain ⟨m, hm⟩ := passes_of_parent hbs hqp hk
    rw [hpieces, hm.step_append (by simp)] at h
    have hd := get?_of_step_name hn (hno name) h
    have hj : ∀ follow, t.step follow m k (name :: cs) = .ok (.at (k ++ [name]) .directory) := by
      intro follow
      rw [step_name hn (hno name) m (.inl ⟨hd, hcs⟩), spot, hd]
    rw [hj, Except.ok.injEq, Spot.at.injEq] at h
    refine ⟨⟨name, h.1.symm⟩, fun follow => ?_⟩
    rw [resolve, if_neg hp, hpieces, hm.step_append (by simp), hj, h.1]

/-- A directory that is made with its parents is new, or nothing was made. -/
theorem ensureAll_ancestors (hup : [dot, dot] ∉ p.pieces) {fuel : Nat}
    (h : t.ensureAll (ancestors fuel p) disk = (.ok (), t')) :
    t' = t ∨ ∃ k, t.get? k = none ∧ ∀ follow, t'.resolve follow p = .ok (.at k .directory) := by
  induction fuel generalizing p t' with
  | zero =>
    cases h
    exact .inl rfl
  | succ fuel ih =>
    rw [ancestors] at h
    split at h
    · cases h
      exact .inl rfl
    · split at h
      · cases h
        exact .inl rfl
      · rename_i q hq
        rcases ensureAll_cons_ok h with h₁ | ⟨h₁, t₁, h₂, h₃⟩
        · exact (ensureDirectory_cases h₁).imp_left And.left
        · have hext : t₁.Extends t := by
            have := ensureAll_extends t (ancestors fuel q) disk
            rwa [h₂] at this
          rcases ih (Path.place_parent? hup hq).2 h₂ with rfl | ⟨k, hk, hqk⟩
          · rw [h₁] at h₃
            cases h₃
          · rcases ensureDirectory_cases h₃ with ⟨rfl, j, hj⟩ | ⟨j, hj, hpj⟩
            · -- below a new directory everything is new
              have hno : ∀ name, t'.linkAt? (k ++ [name]) = none := fun name => by
                rw [hext.linkAt?, FileTree.linkAt?, get?_append_eq_none hk]
              obtain ⟨⟨name, rfl⟩, hp⟩ := resolve_of_parent? hup hq (hqk true) hno hj
              exact .inr ⟨_, get?_append_eq_none hk _, hp⟩
            · exact .inr ⟨j, hext.get?_eq_none hj, hpj⟩

section Join

variable {name : Bytes}

/-- The parent of a path with a name joined to it is that path, but for blank pieces. -/
theorem exists_parent?_join (hn : isName name = true) (hp : p.bytes ≠ []) :
    ∃ q, (p.join ⟨name⟩).parent? = some q ∧
      ∀ (t : FileTree) (follow : Bool) (k : Location),
        t.resolve follow q = .ok (.at k .directory) →
          t.resolve follow p = .ok (.at k .directory) := by
  obtain ⟨ps, hps, h⟩ := Path.pieces_join hn p
  have hq : (p.join ⟨name⟩).parent? = some ((p.join ⟨name⟩).upTo ps.reverse) := by
    rw [Path.parent?, Path.components_join hn, List.getLast?_concat, hps]
    simp [(Path.isName_iff.1 hn).1]
  refine ⟨_, hq, fun t follow k hk => ?_⟩
  have hq0 : ((p.join ⟨name⟩).upTo ps.reverse).bytes ≠ [] := by
    intro h0
    rw [resolve, if_pos h0] at hk
    cases hk
  obtain ⟨as, bs, hab, hbs, hqp⟩ := Path.pieces_upTo (by rw [hps, List.reverse_reverse]) hq0
  rw [List.reverse_reverse] at hab
  have hpieces : ∃ cs, p.pieces = as ++ cs ∧ ∀ c ∈ cs, isBlank c = true := by
    rcases h with ⟨h0, -⟩ | ⟨-, h | h⟩
    · exact absurd h0 hp
    · exact ⟨bs, by rw [h, hab], hbs⟩
    · refine ⟨bs ++ [[]], by rw [h, hab, List.append_assoc], fun c hc => ?_⟩
      rcases List.mem_append.1 hc with hc | hc
      · exact hbs c hc
      · rw [List.mem_singleton.1 hc]
        rfl
  obtain ⟨cs, hcs, hblank⟩ := hpieces
  obtain ⟨m, hm⟩ := passes_of_parent hblank hqp hk
  rw [resolve, if_neg hp, hcs]
  exact hm.step id

theorem directory_of_ensureDirectory_join (hn : isName name = true) (hp : p.bytes ≠ [])
    (h : t.ensureDirectory (p.join ⟨name⟩) disk = .ok t') :
    ∃ k, t.resolve true p = .ok (.at k .directory) := by
  rw [ensureDirectory] at h
  split at h
  · split at h
    · rename_i hd
      obtain ⟨k, hk⟩ := isDirectory_iff.1 hd
      exact directory_of_resolve_join hn hp hk
    · cases h
  · have hmade := Storage.of_grant h
    rw [makeDirectory, (Path.endsInName_join hn p).dropSlashes] at hmade
    cases hr : t.resolve false (p.join ⟨name⟩) with
    | ok s => exact directory_of_resolve_join hn hp hr
    | error r =>
      rw [hr] at hmade
      cases hmade

/-- What it means that a path to a directory is the same as before, or that there was nothing at its
location. -/
def Opened (t t' : FileTree) (p : Path) : Prop :=
  (∃ k, t.resolve true p = .ok (.at k .directory)) ∨
    ∃ k, t.get? k = none ∧ ∀ follow, t'.resolve follow p = .ok (.at k .directory)

theorem Opened.extends {t₁ : FileTree} (h : t.Opened t₁ p) (hext : t'.Extends t₁) :
    t.Opened t' p := by
  refine h.imp_right fun ⟨k, hk, hp⟩ => ⟨k, hk, fun follow => ?_⟩
  exact hext.keepsWays.resolve (hp follow) id

theorem opened_ensureAll_join (hup : .up ∉ p.components) (hn : isName name = true)
    (hp : p.bytes ≠ []) {fuel : Nat}
    (h : t.ensureAll (ancestors (fuel + 1) (p.join ⟨name⟩)) disk = (.ok (), t')) :
    t.Opened t' p := by
  obtain ⟨q, hq, hqp⟩ := exists_parent?_join hn hp
  rw [ancestors, if_neg (Path.join_bytes_ne_nil hn p), hq] at h
  rcases ensureAll_cons_ok h with h₁ | ⟨h₁, t₁, h₂, h₃⟩
  · exact .inl (directory_of_ensureDirectory_join hn hp h₁)
  · have hupj : .up ∉ (p.join ⟨name⟩).components := by simpa [Path.components_join hn] using hup
    have hupq := (Path.place_parent? (Path.dots_not_mem_pieces hupj) hq).2
    rcases ensureAll_ancestors hupq h₂ with rfl | ⟨k, hk, hqk⟩
    · rw [h₁] at h₃
      cases h₃
    · have hopened : t.Opened t₁ p := .inr ⟨k, hk, fun follow => hqp _ _ _ (hqk follow)⟩
      exact hopened.extends (ensureDirectory_ok h₃)

/-- Where a directory two steps below a path is made, the path leads to a directory that was there
before or is new. -/
theorem opened_makeDirectories {name' : Bytes} (hup : .up ∉ p.components)
    (hn : isName name = true) (hn' : isName name' = true) (hp : p.bytes ≠ [])
    (h : t.makeDirectories ((p.join ⟨name⟩).join ⟨name'⟩) disk = (.ok (), t')) :
    t.Opened t' p ∧
      ∃ k, t'.resolve true ((p.join ⟨name⟩).join ⟨name'⟩) = .ok (.at k .directory) := by
  have hlen : ((p.join ⟨name⟩).join ⟨name'⟩).components.length = p.components.length + 2 := by
    rw [Path.components_join hn', Path.components_join hn]
    simp
  rw [makeDirectories, hlen, ancestors, if_neg (Path.join_bytes_ne_nil hn' _),
    Path.parent?_join hn' (Path.endsInName_join hn p)] at h
  have hd := isDirectory_ensureAll h
  refine ⟨?_, hd⟩
  rcases ensureAll_cons_ok h with h₁ | ⟨-, t₁, h₂, h₃⟩
  · obtain ⟨j, hj⟩ :=
      directory_of_ensureDirectory_join hn' (Path.join_bytes_ne_nil hn p) h₁
    exact .inl (directory_of_resolve_join hn hp hj)
  · exact (opened_ensureAll_join hup hn hp h₂).extends (ensureDirectory_ok h₃)

end Join

end FileTree

end JobConfig
