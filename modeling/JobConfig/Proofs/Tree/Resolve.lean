import JobConfig.Proofs.Path
import JobConfig.Proofs.Tree.Basic
import JobConfig.Tree.Operations

/-!
# Where paths lead

What a path resolves to is taken apart once, into the ways in which pieces go from a directory to a
spot; where they lead is the same with the links of the tree alone. In a tree without links the
place to which a path may lead is fixed by the path: its names lead down and its double points up. A
name joined to the path of a directory leads to the entry of that name.
-/

namespace JobConfig

/-! ### Places -/

namespace Path

/-- Where pieces lead from a location. -/
def placeFrom : Location → List Bytes → Location
  | l, [] => l
  | l, p :: ps =>
    if isBlank p then placeFrom l ps
    else if p = [dot, dot] then placeFrom l.dropLast ps
    else placeFrom (l ++ [p]) ps

/-- Where a path leads if there are no links. -/
def place (p : Path) : Location :=
  placeFrom [] p.pieces

theorem placeFrom_append (l : Location) (ps qs : List Bytes) :
    placeFrom l (ps ++ qs) = placeFrom (placeFrom l ps) qs := by
  induction ps generalizing l with
  | nil => rfl
  | cons p ps ih =>
    rw [List.cons_append, placeFrom, placeFrom]
    split
    · exact ih l
    · split
      · exact ih _
      · exact ih _

theorem placeFrom_name {n : Bytes} (hn : isName n = true) (l : Location) :
    placeFrom l [n] = l ++ [n] := by
  obtain ⟨hb, hu, -⟩ := isName_iff.1 hn
  simp [placeFrom, hb, hu]

theorem place_of_pieces {p : Path} {ps : List Bytes} {n : Bytes} (hp : p.pieces = ps ++ [n])
    (hn : isName n = true) : p.place = placeFrom [] ps ++ [n] := by
  rw [place, hp, placeFrom_append, placeFrom_name hn]

theorem placeFrom_blank (l : Location) {ps : List Bytes} (h : ps.all (· == []) = true) :
    placeFrom l ps = l := by
  induction ps with
  | nil => rfl
  | cons p ps ih =>
    rw [List.all_cons, Bool.and_eq_true, beq_iff_eq] at h
    rw [h.1, placeFrom, if_pos (show isBlank [] = true from rfl), ih h.2]

/-- A name joined to a path leads one step down. -/
@[simp] theorem place_join {n : Bytes} (hn : isName n = true) (p : Path) :
    (p.join ⟨n⟩).place = p.place ++ [n] := by
  obtain ⟨ps, hps, h⟩ := pieces_join hn p
  have hp : p.place = placeFrom [] ps := by
    rcases h with ⟨h0, rfl⟩ | ⟨-, h | h⟩
    · rw [place, pieces, h0]
      rfl
    · rw [place, h]
    · rw [place, h, placeFrom_append, placeFrom_blank _ rfl]
  rw [place_of_pieces hps hn, hp]

end Path

namespace FileTree

open JobConfig.Path (slash dot isBlank isName placeFrom place)

variable {t : FileTree} {follow : Bool} {p : Path} {l k : Location} {e : Entry}

/-! ### Following pieces -/

/-- Follow the pieces of a path where there are no links. -/
def walk (t : FileTree) : Location → List Bytes → Except Refusal Spot :=
  t.stepWith true fun _ _ _ => .error .notFound

theorem stepWith_eq_walk (ht : t.LinkFree)
    (onLink : Location → Path → List Bytes → Except Refusal Spot) (l : Location) (ps : List Bytes) :
    t.stepWith follow onLink l ps = t.walk l ps := by
  induction ps generalizing l with
  | nil => rfl
  | cons p ps ih =>
    rw [walk, stepWith, stepWith, ih, ih, ih]
    -- the two differ at links only
    have := ht (l ++ [p])
    split
    · rfl
    split
    · rfl
    cases h : t.get? (l ++ [p]) with
    | none => rfl
    | some e =>
      cases e with
      | file c => rfl
      | directory => rfl
      | link target => exact absurd h (this target)

theorem resolve_eq_walk (ht : t.LinkFree) (follow : Bool) (p : Path) :
    t.resolve follow p =
      if p.bytes = [] then .error .notFound else t.walk [] p.pieces := by
  rw [resolve, maxLinks, step, stepWith_eq_walk ht]

/-! ### Locations -/

/-- The target of the link at a location. -/
def linkAt? (t : FileTree) (l : Location) : Option Path :=
  match t.get? l with
  | some (.link target) => some target
  | _ => none

theorem linkAt?_eq_some_iff {target : Path} :
    t.linkAt? l = some target ↔ t.get? l = some (.link target) := by
  unfold linkAt?
  cases t.get? l with
  | none => simp
  | some e => cases e <;> simp

theorem linkAt?_eq_none (hl : ∀ target, t.get? l ≠ some (.link target)) : t.linkAt? l = none := by
  rw [Option.eq_none_iff_forall_ne_some]
  exact fun target h => hl target (linkAt?_eq_some_iff.1 h)

theorem LinkFree.linkAt? (ht : t.LinkFree) : t.linkAt? = fun _ => none :=
  funext fun l => linkAt?_eq_none (ht l)

/-- Where pieces lead from a location with the links of a tree, whatever else is there. At a link,
`onLink` goes on. -/
def leadsWith (links : Location → Option Path) (follow : Bool)
    (onLink : Location → Path → List Bytes → Option Location) :
    Location → List Bytes → Option Location
  | l, [] => some l
  | l, n :: ps =>
    if isBlank n then leadsWith links follow onLink l ps
    else if n = [dot, dot] then leadsWith links follow onLink l.dropLast ps
    else
      match links (l ++ [n]) with
      | none => leadsWith links follow onLink (l ++ [n]) ps
      | some target => if ps = [] ∧ !follow then some (l ++ [n]) else onLink l target ps

/-- Where pieces lead through a number of links. -/
def leadsFrom (links : Location → Option Path) (follow : Bool) :
    Nat → Location → List Bytes → Option Location
  | 0 => leadsWith links follow fun _ _ _ => none
  | n + 1 =>
    leadsWith links follow fun l target ps =>
      leadsFrom links follow n (target.startIn l) (target.pieces ++ ps)

/-- Where a path leads with the links of a tree, whatever else is there. -/
def leads (t : FileTree) (follow : Bool) (p : Path) : Option Location :=
  leadsFrom t.linkAt? follow maxLinks [] p.pieces

theorem leadsWith_linkFree (onLink : Location → Path → List Bytes → Option Location) (l : Location)
    (ps : List Bytes) :
    leadsWith (fun _ => none) follow onLink l ps = some (placeFrom l ps) := by
  induction ps generalizing l with
  | nil => rfl
  | cons n ps ih =>
    rw [leadsWith, placeFrom, ih, ih]
    simp only [ih]
    split
    · rfl
    · split <;> rfl

/-- Without links a path leads to its place. -/
theorem leads_linkFree (ht : t.LinkFree) (follow : Bool) (p : Path) :
    t.leads follow p = some p.place := by
  rw [leads, ht.linkAt?, maxLinks, leadsFrom, leadsWith_linkFree, place]

theorem leadsFrom_nil (links : Location → Option Path) (follow : Bool) (n : Nat) (l : Location) :
    leadsFrom links follow n l [] = some l := by
  cases n <;> rfl

theorem leadsFrom_cons (links : Location → Option Path) (follow : Bool) (n : Nat) (l : Location)
    (p : Bytes) (ps : List Bytes) : leadsFrom links follow n l (p :: ps) =
      if isBlank p then leadsFrom links follow n l ps
      else if p = [dot, dot] then leadsFrom links follow n l.dropLast ps
      else
        match links (l ++ [p]) with
        | none => leadsFrom links follow n (l ++ [p]) ps
        | some target =>
          if ps = [] ∧ !follow then some (l ++ [p])
          else
            match n with
            | 0 => none
            | n + 1 => leadsFrom links follow n (target.startIn l) (target.pieces ++ ps) := by
  cases n <;> rfl

/-- How pieces lead from a location to another, through at most `n` links. A link at the end is
followed if `follow`. -/
inductive Leads (links : Location → Option Path) (follow : Bool) :
    (n : Nat) → Location → List Bytes → Location → Prop
  | nil {n : Nat} {l : Location} : Leads links follow n l [] l
  | blank {n : Nat} {l k : Location} {p : Bytes} {ps : List Bytes} (hb : isBlank p = true)
      (rest : Leads links follow n l ps k) : Leads links follow n l (p :: ps) k
  | up {n : Nat} {l k : Location} {ps : List Bytes} (rest : Leads links follow n l.dropLast ps k) :
      Leads links follow n l ([dot, dot] :: ps) k
  | down {n : Nat} {l k : Location} {p : Bytes} {ps : List Bytes} (hb : isBlank p = false)
      (hu : p ≠ [dot, dot]) (hno : links (l ++ [p]) = none)
      (rest : Leads links follow n (l ++ [p]) ps k) : Leads links follow n l (p :: ps) k
  | stop {n : Nat} {l : Location} {p : Bytes} {target : Path} (hb : isBlank p = false)
      (hu : p ≠ [dot, dot]) (hl : links (l ++ [p]) = some target) (hf : follow = false) :
      Leads links follow n l [p] (l ++ [p])
  | link {n : Nat} {l k : Location} {p : Bytes} {ps : List Bytes} {target : Path}
      (hb : isBlank p = false) (hu : p ≠ [dot, dot]) (hl : links (l ++ [p]) = some target)
      (hend : ps = [] → follow = true)
      (rest : Leads links follow n (target.startIn l) (target.pieces ++ ps) k) :
      Leads links follow (n + 1) l (p :: ps) k

section

variable {links : Location → Option Path} {n : Nat} {ps : List Bytes}

theorem Leads.leadsFrom (h : Leads links follow n l ps k) :
    leadsFrom links follow n l ps = some k := by
  induction h with
  | nil => exact leadsFrom_nil _ _ _ _
  | blank hb rest ih => rw [leadsFrom_cons, if_pos hb, ih]
  | up rest ih => rw [leadsFrom_cons, if_neg (by decide), if_pos rfl, ih]
  | down hb hu hno rest ih =>
    rw [leadsFrom_cons, if_neg (by simp [hb]), if_neg hu]
    simp only [hno, ih]
  | stop hb hu hl hf =>
    rw [leadsFrom_cons, if_neg (by simp [hb]), if_neg hu]
    simp [hl, hf]
  | link hb hu hl hend rest ih =>
    rw [leadsFrom_cons, if_neg (by simp [hb]), if_neg hu]
    simp only [hl]
    rw [if_neg (by simpa using hend)]
    exact ih

theorem leads_of_leadsFrom (h : leadsFrom links follow n l ps = some k) :
    Leads links follow n l ps k := by
  -- on the links that may be followed, and then on the pieces
  induction n using Nat.strongRecOn generalizing l ps with
  | ind n ihn =>
  induction ps generalizing l with
  | nil =>
    rw [leadsFrom_nil] at h
    cases h
    exact .nil
  | cons p ps ih =>
    rw [leadsFrom_cons] at h
    by_cases hb : isBlank p
    · rw [if_pos hb] at h
      exact .blank hb (ih h)
    rw [if_neg hb] at h
    rw [Bool.not_eq_true] at hb
    by_cases hu : p = [dot, dot]
    · rw [if_pos hu] at h
      subst hu
      exact .up (ih h)
    rw [if_neg hu] at h
    split at h
    · rename_i hno
      exact .down hb hu hno (ih h)
    · rename_i target hl
      split at h
      · rename_i hend
        obtain ⟨rfl, hf⟩ := hend
        cases h
        exact .stop hb hu hl (by simpa using hf)
      · rename_i hend
        cases n with
        | zero => cases h
        | succ n => exact .link hb hu hl (by simpa using hend) (ihn n (by omega) h)

theorem leadsFrom_eq_some_iff :
    leadsFrom links follow n l ps = some k ↔ Leads links follow n l ps k :=
  ⟨leads_of_leadsFrom, Leads.leadsFrom⟩

theorem Leads.of_blank (h : ps.all (· == []) = true) : Leads links follow n l ps l := by
  induction ps with
  | nil => exact .nil
  | cons p ps ih =>
    rw [List.all_cons, Bool.and_eq_true, beq_iff_eq] at h
    exact .blank (by rw [h.1]; rfl) (ih h.2)

end

/-! ### What paths resolve to -/

/-- What it means that something is at a location, or that there is room for it. -/
def Fits (t : FileTree) : Spot → Prop
  | .at l e => t.get? l = some e
  | .vacant l => t.get? l = none ∧ t.Admits l

/-- The location of a spot. -/
def Spot.location : Spot → Location
  | .at l _ => l
  | .vacant l => l

theorem step_nil (n : Nat) (l : Location) : t.step follow n l [] = .ok (.at l .directory) := by
  cases n <;> rfl

/-- What the first piece of a path does. -/
theorem step_cons (t : FileTree) (follow : Bool) (n : Nat) (l : Location) (p : Bytes)
    (ps : List Bytes) : t.step follow n l (p :: ps) =
      if isBlank p then t.step follow n l ps
      else if p = [dot, dot] then t.step follow n l.dropLast ps
      else
        match t.get? (l ++ [p]) with
        | none => if ps.all (· == []) then .ok (.vacant (l ++ [p])) else .error .notFound
        | some .directory => t.step follow n (l ++ [p]) ps
        | some (.file c) => if ps = [] then .ok (.at (l ++ [p]) (.file c)) else .error .notDirectory
        | some (.link target) =>
          if ps = [] ∧ !follow then .ok (.at (l ++ [p]) (.link target))
          else
            match n with
            | 0 => .error .tooManyLinks
            | n + 1 =>
              if target.bytes = [] then .error .notFound
              else t.step follow n (target.startIn l) (target.pieces ++ ps) := by
  cases n <;> rfl

/-- How pieces lead from a directory to a spot, through at most `n` links. A link at the end is
followed if `follow`. -/
inductive Goes (t : FileTree) (follow : Bool) : (n : Nat) → Location → List Bytes → Spot → Prop
  | nil {n : Nat} {l : Location} : Goes t follow n l [] (.at l .directory)
  | blank {n : Nat} {l : Location} {p : Bytes} {ps : List Bytes} {s : Spot} (hb : isBlank p = true)
      (rest : Goes t follow n l ps s) : Goes t follow n l (p :: ps) s
  | up {n : Nat} {l : Location} {ps : List Bytes} {s : Spot}
      (rest : Goes t follow n l.dropLast ps s) : Goes t follow n l ([dot, dot] :: ps) s
  | down {n : Nat} {l : Location} {p : Bytes} {ps : List Bytes} {s : Spot} (hb : isBlank p = false)
      (hu : p ≠ [dot, dot]) (hd : t.get? (l ++ [p]) = some .directory)
      (rest : Goes t follow n (l ++ [p]) ps s) : Goes t follow n l (p :: ps) s
  | vacant {n : Nat} {l : Location} {p : Bytes} {ps : List Bytes} (hb : isBlank p = false)
      (hu : p ≠ [dot, dot]) (hnone : t.get? (l ++ [p]) = none) (hend : ps.all (· == []) = true) :
      Goes t follow n l (p :: ps) (.vacant (l ++ [p]))
  | file {n : Nat} {l : Location} {p c : Bytes} (hb : isBlank p = false) (hu : p ≠ [dot, dot])
      (hc : t.get? (l ++ [p]) = some (.file c)) :
      Goes t follow n l [p] (.at (l ++ [p]) (.file c))
  | stop {n : Nat} {l : Location} {p : Bytes} {target : Path} (hb : isBlank p = false)
      (hu : p ≠ [dot, dot]) (hl : t.get? (l ++ [p]) = some (.link target)) (hf : follow = false) :
      Goes t follow n l [p] (.at (l ++ [p]) (.link target))
  | link {n : Nat} {l : Location} {p : Bytes} {ps : List Bytes} {s : Spot} {target : Path}
      (hb : isBlank p = false) (hu : p ≠ [dot, dot])
      (hl : t.get? (l ++ [p]) = some (.link target))
      (ht : target.bytes ≠ []) (hend : ps = [] → follow = true)
      (rest : Goes t follow n (target.startIn l) (target.pieces ++ ps) s) :
      Goes t follow (n + 1) l (p :: ps) s

section

variable {n : Nat} {ps : List Bytes} {s : Spot}

/-- Whatever pieces lead to, they lead there in one of these ways. -/
theorem goes_of_step (h : t.step follow n l ps = .ok s) : t.Goes follow n l ps s := by
  -- on the links that may be followed, and then on the pieces
  induction n using Nat.strongRecOn generalizing l ps with
  | ind n ihn =>
  induction ps generalizing l with
  | nil =>
    rw [step_nil] at h
    cases h
    exact .nil
  | cons p ps ih =>
    rw [step_cons] at h
    by_cases hb : isBlank p
    · rw [if_pos hb] at h
      exact .blank hb (ih h)
    rw [if_neg hb] at h
    rw [Bool.not_eq_true] at hb
    by_cases hu : p = [dot, dot]
    · rw [if_pos hu] at h
      subst hu
      exact .up (ih h)
    rw [if_neg hu] at h
    split at h
    · rename_i hnone
      split at h
      · rename_i hend
        cases h
        exact .vacant hb hu hnone hend
      · cases h
    · rename_i hd
      exact .down hb hu hd (ih h)
    · rename_i hc
      split at h
      · rename_i hnil
        cases h
        subst hnil
        exact .file hb hu hc
      · cases h
    · rename_i target hl
      split at h
      · rename_i hend
        obtain ⟨rfl, hf⟩ := hend
        cases h
        exact .stop hb hu hl (by simpa using hf)
      · rename_i hend
        cases n with
        | zero => cases h
        | succ n =>
          simp only at h
          split at h
          · cases h
          · rename_i ht
            exact .link hb hu hl ht (by simpa using hend) (ihn n (by omega) h)

theorem Goes.leads (h : t.Goes follow n l ps s) : Leads t.linkAt? follow n l ps s.location := by
  induction h with
  | nil => exact .nil
  | blank hb rest ih => exact .blank hb ih
  | up rest ih => exact .up ih
  | down hb hu hd rest ih => exact .down hb hu (linkAt?_eq_none (by simp [hd])) ih
  | vacant hb hu hnone hend =>
    exact .down hb hu (linkAt?_eq_none (by simp [hnone])) (.of_blank hend)
  | file hb hu hc => exact .down hb hu (linkAt?_eq_none (by simp [hc])) .nil
  | stop hb hu hl hf => exact .stop hb hu (linkAt?_eq_some_iff.2 hl) hf
  | link hb hu hl ht hend rest ih => exact .link hb hu (linkAt?_eq_some_iff.2 hl) hend ih

/-- A path starts in a directory. -/
theorem get?_startIn (hl : t.get? l = some .directory) :
    t.get? (p.startIn l) = some .directory := by
  rw [Path.startIn]
  split
  · rfl
  · exact hl

theorem Goes.fits (h : t.Goes follow n l ps s) (hl : t.get? l = some .directory)
    (hps : ∀ p ∈ ps, slash ∉ p) : t.Fits s := by
  induction h with
  | nil => exact hl
  | blank hb rest ih => exact ih hl (List.forall_mem_cons.1 hps).2
  | @up n l ps s rest ih =>
    refine ih ?_ (List.forall_mem_cons.1 hps).2
    by_cases h0 : l = []
    · rw [h0]
      rfl
    · exact (parent_of_get? hl h0).2
  | down hb hu hd rest ih => exact ih hd (List.forall_mem_cons.1 hps).2
  | @vacant n l p ps hb hu hnone hend =>
    have hp : isName p = true := Path.isName_iff.2 ⟨hb, hu, (List.forall_mem_cons.1 hps).1⟩
    have he : t.entries.get? (l ++ [p]) = none := by rwa [get?_of_ne_nil (by simp)] at hnone
    exact ⟨hnone, by simpa using hp, by rwa [List.dropLast_concat], by simp [he]⟩
  | file hb hu hc => exact hc
  | stop hb hu hlink hf => exact hlink
  | link hb hu hlink ht hend rest ih =>
    refine ih (get?_startIn hl) fun p hp => ?_
    rcases List.mem_append.1 hp with hp | hp
    · exact Path.not_mem_of_mem_split hp
    · exact (List.forall_mem_cons.1 hps).2 p hp

end

/-- What a path resolves to is where it leads. -/
theorem leads_of_resolve {s : Spot} (h : t.resolve follow p = .ok s) :
    t.leads follow p = some s.location ∧ t.Fits s := by
  rw [resolve] at h
  split at h
  · cases h
  · have hgoes := goes_of_step h
    exact ⟨hgoes.leads.leadsFrom, hgoes.fits rfl fun n hn => Path.not_mem_of_mem_split hn⟩

theorem resolve_of_lookup (h : t.lookup follow p = .ok (l, e)) :
    t.resolve follow p = .ok (.at l e) := by
  rw [lookup] at h
  split at h
  · rename_i hr
    cases h
    exact hr
  · cases h
  · cases h

theorem leads_of_lookup (h : t.lookup follow p = .ok (l, e)) :
    t.leads follow p = some l ∧ t.get? l = some e :=
  leads_of_resolve (resolve_of_lookup h)

/-- A path leads to its place, if there are no links and it leads anywhere. -/
theorem fits_resolve (ht : t.LinkFree) {s : Spot} (h : t.resolve follow p = .ok s) :
    s.location = p.place ∧ t.Fits s := by
  obtain ⟨hl, hs⟩ := leads_of_resolve h
  rw [leads_linkFree ht, Option.some.injEq] at hl
  exact ⟨hl.symm, hs⟩

theorem resolve_at (ht : t.LinkFree) (h : t.resolve follow p = .ok (.at l e)) :
    l = p.place ∧ t.get? l = some e :=
  fits_resolve ht h

theorem resolve_vacant (ht : t.LinkFree) (h : t.resolve follow p = .ok (.vacant l)) :
    l = p.place ∧ t.get? l = none ∧ t.Admits l :=
  fits_resolve ht h

theorem lookup_ok (ht : t.LinkFree) (h : t.lookup follow p = .ok (l, e)) :
    l = p.place ∧ t.get? l = some e := by
  obtain ⟨hl, he⟩ := leads_of_lookup h
  rw [leads_linkFree ht, Option.some.injEq] at hl
  exact ⟨hl.symm, he⟩

/-! ### Directories -/

/-- Whether a piece leads from a location to a directory. -/
def Enters (t : FileTree) (l : Location) (n : Bytes) : Prop :=
  isBlank n = true ∨ n = [dot, dot] ∨ t.get? (l ++ [n]) = some .directory

theorem walk_cons {n : Bytes} (h : t.Enters l n) (ps : List Bytes) :
    t.walk l (n :: ps) = t.walk (placeFrom l [n]) ps := by
  rw [walk, stepWith, placeFrom]
  by_cases hb : isBlank n
  · rw [if_pos hb, if_pos hb]
    rfl
  by_cases hu : n = [dot, dot]
  · rw [if_neg hb, if_neg hb, if_pos hu, if_pos hu]
    rfl
  obtain hd : t.get? (l ++ [n]) = some .directory :=
    (h.resolve_left hb).resolve_left hu
  rw [if_neg hb, if_neg hb, if_neg hu, if_neg hu]
  simp only [hd]
  rfl

theorem enters_of_walk (ht : t.LinkFree) {n : Bytes} {ps : List Bytes}
    (h : t.walk l (n :: ps) = .ok (.at k .directory)) : t.Enters l n := by
  rw [walk, stepWith] at h
  by_cases hb : isBlank n
  · exact .inl hb
  by_cases hu : n = [dot, dot]
  · exact .inr (.inl hu)
  rw [if_neg hb, if_neg hu] at h
  cases hg : t.get? (l ++ [n]) with
  | none =>
    simp only [hg] at h
    split at h <;> cases h
  | some e =>
    cases e with
    | directory => exact .inr (.inr hg)
    | file c =>
      simp only [hg] at h
      split at h <;> cases h
    | link target => exact absurd hg (ht _ target)

theorem walk_append (ht : t.LinkFree) {ps : List Bytes} (h : t.walk l ps = .ok (.at k .directory))
    (qs : List Bytes) : t.walk l (ps ++ qs) = t.walk k qs := by
  induction ps generalizing l with
  | nil =>
    cases h
    rfl
  | cons n ps ih =>
    have hn := enters_of_walk ht h
    rw [walk_cons hn] at h
    rw [List.cons_append, walk_cons hn, ih h]

theorem walk_of_append_blank (ht : t.LinkFree) {ps : List Bytes}
    (h : t.walk l (ps ++ [[]]) = .ok (.at k .directory)) :
    t.walk l ps = .ok (.at k .directory) := by
  induction ps generalizing l with
  | nil => exact h
  | cons n ps ih =>
    have hn := enters_of_walk ht h
    rw [List.cons_append, walk_cons hn] at h
    rw [walk_cons hn, ih h]

theorem walk_blank (l : Location) {ps : List Bytes} (h : ps.all (· == []) = true) :
    t.walk l ps = .ok (.at l .directory) := by
  induction ps with
  | nil => rfl
  | cons n ps ih =>
    rw [List.all_cons, Bool.and_eq_true, beq_iff_eq] at h
    have hb : isBlank n = true := by
      rw [h.1]
      rfl
    rw [walk_cons (.inl hb), placeFrom, if_pos hb]
    exact ih h.2

theorem isDirectory_iff_resolve (ht : t.LinkFree) (follow : Bool) :
    t.isDirectory p = true ↔ t.resolve follow p = .ok (.at p.place .directory) := by
  have hf : t.resolve true p = t.resolve follow p := by
    rw [resolve_eq_walk ht, resolve_eq_walk ht]
  rw [isDirectory, lookup, hf]
  constructor
  · intro h
    cases hr : t.resolve follow p with
    | error r => simp [hr] at h
    | ok s =>
      cases s with
      | vacant l => simp [hr] at h
      | «at» l e =>
        obtain ⟨rfl, -⟩ := resolve_at ht hr
        cases e with
        | directory => rfl
        | file c => simp [hr] at h
        | link target => simp [hr] at h
  · intro h
    rw [h]

theorem get?_of_isDirectory (ht : t.LinkFree) (h : t.isDirectory p = true) :
    t.get? p.place = some .directory :=
  (resolve_at ht ((isDirectory_iff_resolve ht true).1 h)).2

theorem isDirectory_iff_walk (ht : t.LinkFree) : t.isDirectory p = true ↔
    p.bytes ≠ [] ∧ t.walk [] p.pieces = .ok (.at p.place .directory) := by
  rw [isDirectory_iff_resolve ht true, resolve_eq_walk ht]
  by_cases hp : p.bytes = [] <;> simp [hp]

/-- What a tree has at a location. -/
def spot (t : FileTree) (l : Location) : Spot :=
  match t.get? l with
  | some e => .at l e
  | none => .vacant l

theorem spot_location (t : FileTree) (l : Location) : (t.spot l).location = l := by
  rw [spot]
  split <;> rfl

theorem walk_name (ht : t.LinkFree) {n : Bytes} (hn : isName n = true) (l : Location) :
    t.walk l [n] = .ok (t.spot (l ++ [n])) := by
  obtain ⟨hb, hu, -⟩ := Path.isName_iff.1 hn
  rw [walk, stepWith, if_neg (by simp [hb]), if_neg hu, spot]
  cases hg : t.get? (l ++ [n]) with
  | none => rfl
  | some e =>
    cases e with
    | directory => rfl
    | file c => rfl
    | link target => exact absurd hg (ht _ target)

/-- A piece that leads to no directory ends the way, if more than blank pieces follow. -/
theorem walk_of_not_enters (ht : t.LinkFree) {n : Bytes} (h : ¬t.Enters l n) {ps : List Bytes}
    (hps : ps.all (· == []) = false) : t.walk l (n :: ps) =
      .error (if t.get? (l ++ [n]) = none then .notFound else .notDirectory) := by
  simp only [Enters, not_or] at h
  obtain ⟨hb, hu, hd⟩ := h
  have hne : ps ≠ [] := by
    rintro rfl
    cases hps
  rw [walk, stepWith, if_neg hb, if_neg hu]
  cases hg : t.get? (l ++ [n]) with
  | none => simp only [hps, Bool.false_eq_true, if_false, if_true]
  | some e =>
    cases e with
    | directory => exact absurd hg hd
    | file c => simp [hne]
    | link target => exact absurd hg (ht _ target)

/-- Where a path leads that ends in a name: to that name in the directory before it. -/
theorem walk_concat_iff (ht : t.LinkFree) {n : Bytes} (hn : isName n = true) {ps : List Bytes}
    {s : Spot} : t.walk l (ps ++ [n]) = .ok s ↔
      ∃ k, t.walk l ps = .ok (.at k .directory) ∧ s = t.spot (k ++ [n]) := by
  constructor
  · intro h
    induction ps generalizing l with
    | nil =>
      rw [List.nil_append, walk_name ht hn, Except.ok.injEq] at h
      exact ⟨l, rfl, h.symm⟩
    | cons m ps ih =>
      by_cases hm : t.Enters l m
      · rw [List.cons_append, walk_cons hm] at h
        rw [walk_cons hm]
        exact ih h
      · have hps : (ps ++ [n]).all (· == []) = false := by simp [Path.ne_nil_of_isName hn]
        rw [List.cons_append, walk_of_not_enters ht hm hps] at h
        cases h
  · rintro ⟨k, hk, rfl⟩
    rw [walk_append ht hk, walk_name ht hn]

/-- The pieces before a name that is joined to a path lead to the same directories as the path,
which may have one more, the blank one behind a slash at its end. -/
theorem exists_pieces_join {n : Bytes} (hn : isName n = true) (hp : p.bytes ≠ []) :
    ∃ ps, (p.join ⟨n⟩).pieces = ps ++ [n] ∧ ∀ t : FileTree, t.LinkFree → ∀ k,
      t.walk [] ps = .ok (.at k .directory) ↔ t.walk [] p.pieces = .ok (.at k .directory) := by
  obtain ⟨ps, hps, h⟩ := Path.pieces_join hn p
  refine ⟨ps, hps, fun t ht k => ?_⟩
  rcases h with ⟨h0, -⟩ | ⟨-, h | h⟩
  · exact absurd h0 hp
  · rw [h]
  · rw [h]
    exact ⟨fun hw => by rw [walk_append ht hw, walk_blank k rfl], walk_of_append_blank ht⟩

/-! ### Paths that do not lead up -/

theorem placeFrom_eq_append {ps : List Bytes} (h : [dot, dot] ∉ ps) (l : Location) :
    ∃ names, placeFrom l ps = l ++ names := by
  induction ps generalizing l with
  | nil => exact ⟨[], by simp [placeFrom]⟩
  | cons n ps ih =>
    simp only [List.mem_cons, not_or] at h
    rw [placeFrom, if_neg (Ne.symm h.1)]
    split
    · exact ih h.2 l
    · obtain ⟨names, hn⟩ := ih h.2 (l ++ [n])
      exact ⟨n :: names, by rw [hn, List.append_assoc, List.singleton_append]⟩

theorem walk_of_get? {ps : List Bytes} (h : [dot, dot] ∉ ps)
    (hd : t.get? (placeFrom l ps) = some .directory) :
    t.walk l ps = .ok (.at (placeFrom l ps) .directory) := by
  induction ps generalizing l with
  | nil => rfl
  | cons n ps ih =>
    simp only [List.mem_cons, not_or] at h
    -- what is left of the path leads down, and what is above a directory is one
    have hn : t.Enters l n := by
      by_cases hb : isBlank n
      · exact .inl hb
      · rw [placeFrom, if_neg hb, if_neg (Ne.symm h.1)] at hd
        obtain ⟨names, hnames⟩ := placeFrom_eq_append h.2 (l ++ [n])
        rw [hnames] at hd
        by_cases h0 : names = []
        · exact .inr (.inr (by simpa [h0] using hd))
        · exact .inr (.inr (directory_of_get?_append hd h0).2.2)
    have hp : placeFrom l (n :: ps) = placeFrom (placeFrom l [n]) ps :=
      Path.placeFrom_append l [n] ps
    rw [hp] at hd ⊢
    rw [walk_cons hn, ih h.2 hd]

/-- A path that does not lead up leads to the directory at its place. -/
theorem isDirectory_of_get? (ht : t.LinkFree) (hup : .up ∉ p.components) (hb : p.bytes ≠ [])
    (h : t.get? p.place = some .directory) : t.isDirectory p = true := by
  refine (isDirectory_iff_walk ht).2 ⟨hb, walk_of_get? (fun hmem => hup ?_) h⟩
  exact List.mem_append_right _ (List.mem_filterMap.2 ⟨_, hmem, rfl⟩)

end FileTree

end JobConfig
