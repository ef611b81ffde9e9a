import JobConfig.Proofs.Schema.Results
import Mathlib.Data.List.Forall2
import Mathlib.Data.List.Induction

/-!
# Reading records by the table

What a reader makes of the entries of a record depends only on what is found under each field and on
the entries that are left.
-/

namespace JobConfig

/-- The entries that a record is read from. -/
class EntryLike (E : Type) where
  name? : E → Option String
  datum : E → Datum

instance : EntryLike (Value × Value) where
  name? e := e.1.asString.toOption
  datum e := .value e.2

instance : EntryLike (Datum × Datum) where
  name? e := e.1.keyOf?
  datum e := e.2

open EntryLike (name? datum)

theorem name?_value_iff {e : Value × Value} {n : String} :
    name? e = some n ↔ e.1 = .string n := by
  obtain ⟨k, v⟩ := e
  cases k <;> simp [name?, Value.asString, Except.toOption]

section Entries

variable {E : Type} [EntryLike E]

/-- Whether an entry has a name. -/
def isNamed (n : String) (e : E) : Bool :=
  name? e == some n

/-- What stands under a name. Of several entries the last one counts. -/
def bound? (n : String) (es : List E) : Option Datum :=
  ((es.filter (isNamed n)).getLast?).map datum

variable {n : String} {es : List E} {e : E}

theorem filter_isNamed_concat : (es ++ [e]).filter (isNamed n) =
    if name? e = some n then es.filter (isNamed n) ++ [e] else es.filter (isNamed n) := by
  rw [List.filter_append]
  by_cases h : name? e = some n <;> simp [isNamed, h]

theorem bound?_concat :
    bound? n (es ++ [e]) = if name? e = some n then some (datum e) else bound? n es := by
  rw [bound?, filter_isNamed_concat]
  split
  · simp
  · rfl

theorem bound?_eq_none_iff : bound? n es = none ↔ es.filter (isNamed n) = [] := by
  simp [bound?]

/-- What is given once stands under its name. -/
theorem bound?_of_once (h : (es.filter (isNamed n)).length ≤ 1) (he : e ∈ es)
    (hn : name? e = some n) : bound? n es = some (datum e) := by
  have hmem : e ∈ es.filter (isNamed n) := List.mem_filter.2 ⟨he, by simp [isNamed, hn]⟩
  obtain ⟨a, ha⟩ := List.length_eq_one_iff.1
    (Nat.le_antisymm h (List.length_pos_of_mem hmem))
  rw [ha, List.mem_singleton] at hmem
  rw [bound?, ha, hmem]
  rfl

/-- A name that is given once is not given before. -/
theorem filter_isNamed_eq_nil (h : ((es ++ [e]).filter (isNamed n)).length ≤ 1)
    (he : name? e = some n) : es.filter (isNamed n) = [] := by
  rw [filter_isNamed_concat, if_pos he, List.length_append, List.length_singleton] at h
  exact List.length_eq_zero_iff.1 (by omega)

end Entries

/-! ### One entry -/

section Step

variable {E ρ φ : Type} [EntryLike E] {slots : List (Slot ρ)} {frame : ρ → φ}

/-- The field that an entry gives. -/
def slot? (slots : List (Slot ρ)) (e : E) : Option (Slot ρ) :=
  (name? e).bind fun n => slots.find? (·.name == n)

theorem slot?_eq_none_iff {e : E} :
    slot? slots e = none ↔ ∀ s ∈ slots, name? e ≠ some s.name := by
  rw [slot?]
  cases name? e with
  | none => simp
  | some n =>
    rw [Option.bind_some, List.find?_eq_none]
    refine forall₂_congr fun s _ => ?_
    rw [beq_iff_eq, ne_eq, Option.some.injEq, eq_comm]

theorem mem_of_slot? {e : E} {s : Slot ρ} (h : slot? slots e = some s) :
    s ∈ slots ∧ name? e = some s.name := by
  rw [slot?, Option.bind_eq_some_iff] at h
  obtain ⟨n, hn, hs⟩ := h
  have hname : s.name = n := by simpa using List.find?_some hs
  exact ⟨List.mem_of_find?_eq_some hs, by rw [hn, hname]⟩

/-- The entries that give no field. -/
def unnamed (slots : List (Slot ρ)) (es : List E) : List E :=
  es.filter fun e => (slot? slots e).isNone

theorem mem_unnamed {es : List E} {e : E} :
    e ∈ unnamed slots es ↔ e ∈ es ∧ slot? slots e = none := by
  simp [unnamed]

theorem unnamed_concat {es : List E} {e : E} : unnamed slots (es ++ [e]) =
    unnamed slots es ++ if (slot? slots e).isNone then [e] else [] := by
  rw [unnamed, List.filter_append, List.filter_singleton, Bool.cond_eq_ite]
  rfl

/-- Read one entry: a field may be given once, and `keep` is what is kept of another entry. -/
def stepSlots (slots : List (Slot ρ)) (keep : E → Option (List (Value × Value))) (d : Draft ρ)
    (e : E) : Option (Draft ρ) :=
  match slot? slots e with
  | some s =>
    if d.given.contains s.name then none
    else (s.shape.read (datum e)).map fun a =>
      { d with record := s.set a d.record, given := s.name :: d.given }
  | none => (keep e).map fun l => { d with rest := d.rest ++ l }

/-- What is known of a draft into which entries were read. -/
structure Reads (slots : List (Slot ρ)) (frame : ρ → φ) (keep : E → Option (List (Value × Value)))
    (start : ρ) (es : List E) (d : Draft ρ) : Prop where
  once : ∀ s ∈ slots, (es.filter (isNamed s.name)).length ≤ 1
  fields : ∀ s ∈ slots, (bound? s.name es).elim (some (s.get start)) s.shape.read =
    some (s.get d.record)
  given : ∀ s ∈ slots, s.name ∈ d.given ↔ (bound? s.name es).isSome
  frame : frame d.record = frame start
  kept : ∀ e ∈ unnamed slots es, (keep e).isSome
  rest : d.rest = (unnamed slots es).flatMap fun e => (keep e).getD []

variable {keep : E → Option (List (Value × Value))} {start : ρ}

/-- One more entry that gives no field: it is kept. -/
theorem Reads.concat_unnamed {es : List E} {d : Draft ρ} {e : E} {l : List (Value × Value)}
    (h : Reads slots frame keep start es d) (hs : slot? slots e = none) (hk : keep e = some l) :
    Reads slots frame keep start (es ++ [e]) { d with rest := d.rest ++ l } := by
  have hne := slot?_eq_none_iff.1 hs
  have hu : unnamed slots (es ++ [e]) = unnamed slots es ++ [e] := by simp [unnamed_concat, hs]
  refine ⟨fun s hm => ?_, fun s hm => ?_, fun s hm => ?_, h.frame, fun e' he' => ?_, ?_⟩
  · rw [filter_isNamed_concat, if_neg (hne s hm)]
    exact h.once s hm
  · rw [bound?_concat, if_neg (hne s hm)]
    exact h.fields s hm
  · rw [bound?_concat, if_neg (hne s hm)]
    exact h.given s hm
  · rw [hu] at he'
    rcases List.mem_append.1 he' with he' | he'
    · exact h.kept e' he'
    · rw [List.mem_singleton.1 he', hk]
      rfl
  · simp [h.rest, hu, hk]

/-- One more entry that gives a field which was not given. -/
theorem Reads.concat_field (hl : IsLayout slots frame) {es : List E} {d : Draft ρ} {e : E}
    {s : Slot ρ} {a : s.shape.Content} (h : Reads slots frame keep start es d)
    (hs : slot? slots e = some s) (hg : s.name ∉ d.given)
    (ha : s.shape.read (datum e) = some a) :
    Reads slots frame keep start (es ++ [e])
      { d with record := s.set a d.record, given := s.name :: d.given } := by
  obtain ⟨hm, he⟩ := mem_of_slot? hs
  have hno : es.filter (isNamed s.name) = [] := by
    rw [← bound?_eq_none_iff, ← Option.not_isSome_iff_eq_none, ← h.given s hm]
    exact hg
  have hu : unnamed slots (es ++ [e]) = unnamed slots es := by simp [unnamed_concat, hs]
  have hne : ∀ s' ∈ slots, s'.name ≠ s.name → name? e ≠ some s'.name := by
    intro s' _ hn
    rw [he, ne_eq, Option.some.injEq]
    exact Ne.symm hn
  refine ⟨fun s' hm' => ?_, fun s' hm' => ?_, fun s' hm' => ?_, ?_, hu ▸ h.kept, hu ▸ h.rest⟩
  · by_cases hn : s'.name = s.name
    · rw [filter_isNamed_concat, hn, if_pos he, hno]
      simp
    · rw [filter_isNamed_concat, if_neg (hne s' hm' hn)]
      exact h.once s' hm'
  · by_cases hn : s'.name = s.name
    · obtain rfl := List.inj_on_of_nodup_map hl.nodup hm' hm hn
      rw [bound?_concat, if_pos he, Option.elim_some, ha, hl.get_set s' hm]
    · rw [bound?_concat, if_neg (hne s' hm' hn), hl.get_set_of_ne s' hm' s hm hn]
      exact h.fields s' hm'
  · by_cases hn : s'.name = s.name
    · simp [bound?_concat, hn, he]
    · rw [bound?_concat, if_neg (hne s' hm' hn), List.mem_cons, h.given s' hm']
      simp [hn]
  · rw [hl.frame_set s hm]
    exact h.frame

theorem Reads.concat (hl : IsLayout slots frame) {es : List E} {d d' : Draft ρ} {e : E}
    (h : Reads slots frame keep start es d) (hd : stepSlots slots keep d e = some d') :
    Reads slots frame keep start (es ++ [e]) d' := by
  rw [stepSlots] at hd
  cases hs : slot? slots e with
  | none =>
    simp only [hs, Option.map_eq_some_iff] at hd
    obtain ⟨l, hk, rfl⟩ := hd
    exact h.concat_unnamed hs hk
  | some s =>
    simp only [hs, Option.ite_none_left_eq_some, List.contains_iff_mem, Option.map_eq_some_iff]
      at hd
    obtain ⟨hg, a, ha, rfl⟩ := hd
    exact h.concat_field hl hs hg ha

omit [EntryLike E] in
theorem foldlM_concat {f : Draft ρ → E → Option (Draft ρ)} {d : Draft ρ} {es : List E} {e : E} :
    (es ++ [e]).foldlM f d = (es.foldlM f d).bind fun d => f d e := by
  rw [List.foldlM_append, Option.bind_eq_bind]
  congr 1
  funext d
  cases h : f d e <;> simp [h]

theorem reads_of_foldlM (hl : IsLayout slots frame) {es : List E} {d : Draft ρ}
    (h : es.foldlM (stepSlots slots keep) { record := start } = some d) :
    Reads slots frame keep start es d := by
  induction es using List.reverseRecOn generalizing d with
  | nil =>
    obtain rfl := Option.some.inj h
    exact ⟨by simp, by simp [bound?], by simp [bound?], rfl, by simp [unnamed], by simp [unnamed]⟩
  | append_singleton es e ih =>
    rw [foldlM_concat, Option.bind_eq_some_iff] at h
    obtain ⟨d₀, h₀, hd⟩ := h
    exact (ih h₀).concat hl hd

/-- Entries are read if no field is given twice and each is what may stand there. -/
theorem exists_foldlM (start : ρ) (hl : IsLayout slots frame) {es : List E}
    (honce : ∀ s ∈ slots, (es.filter (isNamed s.name)).length ≤ 1)
    (hread : ∀ s ∈ slots, ∀ x, bound? s.name es = some x → (s.shape.read x).isSome)
    (hkept : ∀ e ∈ unnamed slots es, (keep e).isSome) :
    ∃ d, es.foldlM (stepSlots slots keep) { record := start } = some d := by
  induction es using List.reverseRecOn with
  | nil => exact ⟨_, rfl⟩
  | append_singleton es e ih =>
    have hsub : ∀ n, (es.filter (isNamed n)).length ≤ ((es ++ [e]).filter (isNamed n)).length :=
      fun n => ((List.sublist_append_left es [e]).filter _).length_le
    have hunder : ∀ s ∈ slots, ∀ x, bound? s.name es = some x →
        bound? s.name (es ++ [e]) = some x := by
      intro s hs x hx
      rw [bound?_concat, if_neg, hx]
      intro he
      rw [bound?_eq_none_iff.2 (filter_isNamed_eq_nil (honce s hs) he)] at hx
      cases hx
    obtain ⟨d, hd⟩ := ih (fun s hs => Nat.le_trans (hsub s.name) (honce s hs))
      (fun s hs x hx => hread s hs x (hunder s hs x hx))
      (fun e' he' => hkept e' (by rw [unnamed_concat]; exact List.mem_append_left _ he'))
    have h := reads_of_foldlM hl hd
    rw [foldlM_concat, hd, Option.bind_some, stepSlots]
    cases hs : slot? slots e with
    | none =>
      obtain ⟨l, hk⟩ := Option.isSome_iff_exists.1
        (hkept e (mem_unnamed.2 ⟨by simp, hs⟩))
      exact ⟨_, by rw [hk]; rfl⟩
    | some s =>
      obtain ⟨hm, he⟩ := mem_of_slot? hs
      obtain ⟨a, ha⟩ := Option.isSome_iff_exists.1
        (hread s hm (datum e) (by rw [bound?_concat, if_pos he]))
      have hg : s.name ∉ d.given := by
        rw [h.given s hm, bound?_eq_none_iff.2 (filter_isNamed_eq_nil (honce s hm) he)]
        simp
      simp [hg, ha]

end Step

/-! ### The readers -/

/-- Whether a field of a reader is one of the table. The reader may read something other than a
datum. -/
structure Field.Fits {ε σ ρ : Type} (toDatum : σ → Datum) (f : Field ε σ ρ) (s : Slot ρ) :
    Prop where
  name : f.name = s.name
  read : ∀ x, (f.read x).toOption = (s.shape.read (toDatum x)).map s.set

/-- What is kept of an entry of values that gives no field. -/
def keepValue (e : Value × Value) : Option (List (Value × Value)) :=
  match e.1 with
  | .string _ => some [e]
  | .int i => if 0 ≤ i then some [e] else none
  | _ => none

/-- What is kept of an entry of data that gives no field. -/
def keepDatum (e : Datum × Datum) : Option (List (Value × Value)) := do
  let name ← name? e
  let v ← (e.2.toValue .root).toOption
  return [(.string name, v)]

/-- Nothing is kept of an entry that gives no field, but its name is read. -/
def keepNothing (e : Datum × Datum) : Option (List (Value × Value)) :=
  (name? e).map fun _ => []

section Readers

variable {ε σ ρ : Type} {toDatum : σ → Datum} {slots : List (Slot ρ)}

theorem find?_fits {fields : List (Field ε σ ρ)}
    (h : List.Forall₂ (Field.Fits toDatum) fields slots) (n : String) :
    (Field.find? fields n = none ∧ slots.find? (·.name == n) = none) ∨
      ∃ f s, Field.find? fields n = some f ∧ slots.find? (·.name == n) = some s ∧
        f.Fits toDatum s := by
  induction h with
  | nil => exact .inl ⟨rfl, rfl⟩
  | @cons f s fields slots hf _ ih =>
    rw [Field.find?, List.find?_cons, List.find?_cons, hf.name]
    split
    · exact .inr ⟨f, s, rfl, rfl, hf⟩
    · exact ih

theorem toOption_set {d : Draft ρ} {f : Field ε σ ρ} {s : Slot ρ} (h : f.Fits toDatum s) (x : σ)
    (repeated : ε) : (d.set f x repeated).toOption =
      if d.given.contains s.name then none
      else (s.shape.read (toDatum x)).map fun a =>
        { d with record := s.set a d.record, given := s.name :: d.given } := by
  rw [Draft.set, h.name]
  split
  · rfl
  · rw [toOption_map, h.read, Option.map_map]
    rfl

theorem toOption_stepValue {fields : List (Field Fault Value ρ)}
    (h : List.Forall₂ (Field.Fits .value) fields slots) (d : Draft ρ) (e : Value × Value) :
    (Draft.stepValue fields d e).toOption = stepSlots slots keepValue d e := by
  obtain ⟨k, v⟩ := e
  cases k with
  | string n =>
    have hn : slot? slots ((.string n, v) : Value × Value) = slots.find? (·.name == n) := rfl
    rw [stepSlots, hn, Draft.stepValue]
    obtain ⟨hf, hs⟩ | ⟨f, s, hf, hs, hfits⟩ := find?_fits h n
    · simp only [hf, hs]
      rfl
    · simp only [hf, hs]
      exact toOption_set hfits v _
  | int i =>
    have hn : slot? slots ((.int i, v) : Value × Value) = none := rfl
    by_cases hi : 0 ≤ i <;>
      simp [stepSlots, hn, Draft.stepValue, keepValue, Draft.keep, Except.toOption, hi]
  | _ => rfl

theorem toOption_stepDatum {fields : Place → List (Field Misread Datum ρ)}
    (h : ∀ q, List.Forall₂ (Field.Fits id) (fields q) slots) (p : Place) (d : Draft ρ)
    (e : Datum × Datum) :
    (Draft.stepDatum fields p d e).toOption = stepSlots slots keepDatum d e := by
  rw [Draft.stepDatum, toOption_bind, toOption_placed, Datum.toOption_asKey, stepSlots, slot?,
    keepDatum]
  change (name? e).bind _ = _
  cases name? e with
  | none => rfl
  | some n =>
    rw [Option.bind_some, Option.bind_some]
    obtain ⟨hf, hs⟩ | ⟨f, s, hf, hs, hfits⟩ := find?_fits (h (.member p n)) n
    · simp only [hf, hs, toOption_bind, Datum.toOption_toValue (.member p n) .root]
      cases (e.2.toValue .root).toOption <;> rfl
    · simp only [hf, hs]
      exact toOption_set hfits e.2 _

theorem toOption_step (h : ∀ q, List.Forall₂ (Field.Fits id) (JobSet.fields q) JobSet.slots)
    (d : Draft JobSet) (e : Datum × Datum) :
    (JobSet.step d e).toOption = stepSlots JobSet.slots keepNothing d e := by
  rw [JobSet.step, toOption_bind, toOption_placed, Datum.toOption_asKey, stepSlots, slot?,
    keepNothing]
  change (name? e).bind _ = _
  cases name? e with
  | none => rfl
  | some n =>
    rw [Option.bind_some, Option.bind_some]
    obtain ⟨hf, hs⟩ | ⟨f, s, hf, hs, hfits⟩ := find?_fits (h (.member .root n)) n
    · simp only [hf, hs]
      simp [pure, Except.pure, Except.toOption]
    · simp only [hf, hs]
      exact toOption_set hfits e.2 _

end Readers

/-! ### What entries spell -/

section Spells

variable {E : Type} [EntryLike E] {ρ : Type}

/-- The name and the value of an entry that gives no field. No key may repeat in the value. -/
def memberOf? (e : E) : Option (String × Value) := do
  let name ← name? e
  let v ← ((datum e).toValue .root).toOption
  v.checkKeys.toOption
  return (name, v)

theorem memberOf?_eq {e : E} {n : String} {v : Value} (hn : name? e = some n)
    (hv : ((datum e).toValue .root).toOption = some v) :
    memberOf? e = v.checkKeys.toOption.map fun _ => (n, v) := by
  cases h : v.checkKeys.toOption <;> simp [memberOf?, hn, hv, h]

theorem memberOf?_eq_some {e : E} {p : String × Value} (h : memberOf? e = some p) :
    name? e = some p.1 ∧ ((datum e).toValue .root).toOption = some p.2 ∧
      p.2.checkKeys.toOption = some () := by
  simp only [memberOf?, Option.bind_eq_bind, Option.bind_eq_some_iff, Option.pure_def,
    Option.some.injEq] at h
  obtain ⟨n, hn, v, hv, u, hk, rfl⟩ := h
  exact ⟨hn, hv, hk⟩

/-- The members that the schema does not name. -/
def readExtra (slots : List (Slot ρ)) (es : List E) : Option Extra :=
  ((unnamed slots es).mapM memberOf?).map .ofList

/-- What a field holds, with `x?` under its name. -/
def Slot.content (s : Slot ρ) (x? : Option Datum) : Option s.shape.Content :=
  x?.elim s.absent s.shape.read

/-- Whether entries say what a record holds. -/
structure Spells (slots : List (Slot ρ)) (extra? : Option Extra) (es : List E) (r : ρ) : Prop where
  named : ∀ e ∈ es, (name? e).isSome
  once : ∀ s ∈ slots, (es.filter (isNamed s.name)).length ≤ 1
  fields : ∀ s ∈ slots, s.content (bound? s.name es) = some (s.get r)
  extra : ∀ m, extra? = some m → readExtra slots es = some m

variable {φ : Type} {slots : List (Slot ρ)} {frame : ρ → φ}
  {keep : E → Option (List (Value × Value))} {start r : ρ} {es : List E} {d : Draft ρ}

/-- Entries that say what the fields hold are read. -/
theorem exists_reads (start : ρ) (hl : IsLayout slots frame)
    (honce : ∀ s ∈ slots, (es.filter (isNamed s.name)).length ≤ 1)
    (hfields : ∀ s ∈ slots, s.content (bound? s.name es) = some (s.get r))
    (hkept : ∀ e ∈ unnamed slots es, (keep e).isSome) :
    ∃ d, es.foldlM (stepSlots slots keep) { record := start } = some d ∧
      Reads slots frame keep start es d := by
  have hread : ∀ s ∈ slots, ∀ x, bound? s.name es = some x → (s.shape.read x).isSome := by
    intro s hs x hx
    have hf := hfields s hs
    rw [hx] at hf
    exact Option.isSome_iff_exists.2 ⟨_, hf⟩
  obtain ⟨d, hd⟩ := exists_foldlM start hl honce hread hkept
  exact ⟨d, hd, reads_of_foldlM hl hd⟩

/-- What a field holds that may be left out. -/
theorem Reads.content_of_absent (h : Reads slots frame keep start es d) {s : Slot ρ}
    (hs : s ∈ slots) (hstart : s.absent = some (s.get start)) :
    s.content (bound? s.name es) = some (s.get d.record) := by
  rw [Slot.content, hstart]
  exact h.fields s hs

end Spells

/-! ### Records that keep what they do not name -/

theorem toOption_require {ρ : Type} {d : Draft ρ} {ns : List String} {u : Unit} :
    (d.require ns).toOption = some u ↔ ∀ n ∈ ns, n ∈ d.given := by
  induction ns with
  | nil => simp [Draft.require, Except.toOption]
  | cons n ns ih =>
    rw [Draft.require]
    by_cases hn : n ∈ d.given
    · simpa [hn] using ih
    · simp [hn, Except.toOption]

theorem toOption_addExtra (m : Extra) (e : Value × Value) :
    (Value.addExtra m e).toOption = (memberOf? e).map fun e => m.insert e.1 e.2 := by
  obtain ⟨k, v⟩ := e
  cases k with
  | string n =>
    rw [memberOf?_eq (n := n) (v := v) rfl rfl]
    cases h : v.checkKeys <;>
      simp [Value.addExtra, Value.asString, h, Except.toOption, bind, Except.bind, pure,
        Except.pure]
  | _ => rfl

theorem toOption_extraOf (rest : List (Value × Value)) :
    (Value.extraOf rest).toOption = (rest.mapM memberOf?).map .ofList := by
  rw [Value.extraOf, toOption_foldlM]
  simp only [toOption_addExtra]
  exact foldlM_insert memberOf? rest ∅

section Extra

variable {E ρ : Type} [EntryLike E] {slots : List (Slot ρ)} {extra : ρ → Extra}
  {keep : E → Option (List (Value × Value))}

/-- Whether the entries that are kept are those that can be members that the schema does not
name. -/
def KeepsExtra (keep : E → Option (List (Value × Value))) : Prop :=
  ∀ e, (keep e).bind (fun l => l.mapM memberOf?) = (memberOf? e).map fun p => [p]

theorem keepsExtra_keepValue : KeepsExtra keepValue := by
  rintro ⟨k, v⟩
  cases k with
  | string n =>
    simp only [keepValue, Option.bind_some, List.mapM_cons, List.mapM_nil]
    cases memberOf? ((.string n, v) : Value × Value) <;> rfl
  | int i =>
    have hno : memberOf? ((.int i, v) : Value × Value) = none := rfl
    by_cases hi : 0 ≤ i <;> simp [keepValue, hi, hno]
  | _ => rfl

theorem keepsExtra_keepDatum : KeepsExtra keepDatum := by
  rintro ⟨k, x⟩
  rw [keepDatum]
  cases hn : name? ((k, x) : Datum × Datum) with
  | none =>
    rw [memberOf?, hn]
    rfl
  | some n =>
    cases hv : (x.toValue .root).toOption with
    | none =>
      rw [memberOf?, hn]
      change none = ((x.toValue .root).toOption.bind _).map _
      rw [hv]
      rfl
    | some v =>
      have he : memberOf? ((.string n, v) : Value × Value) = memberOf? (k, x) := by
        rw [memberOf?_eq hn hv, memberOf?_eq rfl rfl]
      simp only [bind, Option.bind_some, pure, List.mapM_cons, List.mapM_nil, he]
      cases memberOf? (k, x) <;> rfl

/-- What is kept are the members that the schema does not name. -/
theorem KeepsExtra.mapM_flatMap (hk : KeepsExtra keep) {es : List E}
    (h : ∀ e ∈ es, (keep e).isSome) :
    (es.flatMap fun e => (keep e).getD []).mapM memberOf? = es.mapM memberOf? := by
  induction es with
  | nil => rfl
  | cons e es ih =>
    obtain ⟨l, hl⟩ := Option.isSome_iff_exists.1 (h e List.mem_cons_self)
    have he : l.mapM memberOf? = (memberOf? e).map fun p => [p] := by
      rw [← hk e, hl, Option.bind_some]
    rw [List.flatMap_cons, List.mapM_append, ih fun e' he' => h e' (List.mem_cons_of_mem _ he'),
      hl, Option.getD_some, he, List.mapM_cons]
    cases memberOf? e <;> rfl

theorem KeepsExtra.isSome (hk : KeepsExtra keep) {e : E} (h : (memberOf? e).isSome) :
    (keep e).isSome := by
  have hke := hk e
  cases hl : keep e with
  | some l => rfl
  | none =>
    rw [hl] at hke
    cases he : memberOf? e with
    | none => simp [he] at h
    | some p => simp [he] at hke

theorem readExtra_eq_some_iff {es : List E} {m : Extra} :
    readExtra slots es = some m ↔ (∀ e ∈ unnamed slots es, (memberOf? e).isSome) ∧
      m = .ofList ((unnamed slots es).filterMap memberOf?) := by
  rw [readExtra, Option.map_eq_some_iff]
  constructor
  · rintro ⟨l, hl, rfl⟩
    obtain ⟨h, rfl⟩ := mapM_eq_some_iff.1 hl
    exact ⟨h, rfl⟩
  · rintro ⟨h, rfl⟩
    exact ⟨_, mapM_eq_some_iff.2 ⟨h, rfl⟩, rfl⟩

/-- The entries of a field have a name, and so do those that can be members that the schema does not
name. -/
theorem isSome_name? {es : List E} (h : ∀ e ∈ unnamed slots es, (memberOf? e).isSome) :
    ∀ e ∈ es, (name? e).isSome := by
  intro e he
  cases hn : name? e with
  | some n => rfl
  | none =>
    have hs := h e (mem_unnamed.2 ⟨he, by rw [slot?, hn]; rfl⟩)
    rw [memberOf?, hn] at hs
    cases hs

theorem Reads.toOption_extraOf {φ : Type} {frame : ρ → φ} {start : ρ} {es : List E} {d : Draft ρ}
    (h : Reads slots frame keep start es d) (hk : KeepsExtra keep) :
    (Value.extraOf d.rest).toOption = readExtra slots es := by
  rw [JobConfig.toOption_extraOf, h.rest, hk.mapM_flatMap h.kept, readExtra]

/-- A field that is required is given if it has a content. -/
theorem Slot.isSome_of_content {s : Slot ρ} {x? : Option Datum} {a : s.shape.Content}
    (h : s.content x? = some a) (hs : s.required = true) : x?.isSome = true := by
  cases x? with
  | some x => rfl
  | none =>
    rw [content, Option.elim_none, absent, if_pos hs] at h
    cases h

theorem Reads.content {φ : Type} {frame : ρ → φ} {start : ρ} {es : List E} {d : Draft ρ}
    (h : Reads slots frame keep start es d) {s : Slot ρ} (hs : s ∈ slots)
    (hstart : s.required = false → s.shape.default = some (s.get start))
    (hreq : s.required = true → s.name ∈ d.given) :
    s.content (bound? s.name es) = some (s.get d.record) := by
  rw [← h.fields s hs, Slot.content]
  cases hx : bound? s.name es with
  | some x => rfl
  | none =>
    rw [Option.elim_none, Option.elim_none, Slot.absent]
    cases hq : s.required with
    | false => exact hstart hq
    | true =>
      have hg := hreq hq
      rw [h.given s hs, hx] at hg
      cases hg

/-- What the reader of a record with extra members reads, if its fields are those of the table. -/
theorem spells_iff (start : ρ) (req : List String) (finish : ρ → Extra → ρ)
    (hl : IsLayout slots extra) (hk : KeepsExtra keep)
    (hstart : ∀ s ∈ slots, s.required = false → s.shape.default = some (s.get start))
    (hreq : req = (slots.filter (·.required)).map Slot.name)
    (hget : ∀ s ∈ slots, ∀ r m, s.get (finish r m) = s.get r)
    (hextra : ∀ r m, extra (finish r m) = m) {es : List E} {r : ρ} :
    ((es.foldlM (stepSlots slots keep) { record := start }).bind fun d =>
      (d.require req).toOption.bind fun _ =>
        (Value.extraOf d.rest).toOption.bind fun m => some (finish d.record m)) = some r ↔
      Spells slots (some (extra r)) es r := by
  have hgiven : ∀ d : Draft ρ, (∀ n ∈ req, n ∈ d.given) ↔
      ∀ s ∈ slots, s.required = true → s.name ∈ d.given := by
    intro d
    subst hreq
    simp only [List.mem_map, List.mem_filter, forall_exists_index, and_imp]
    exact ⟨fun h s hs hq => h _ s hs hq rfl, fun h n s hs hq hn => hn ▸ h s hs hq⟩
  simp only [Option.bind_eq_some_iff, Option.some.injEq, toOption_require, hgiven]
  constructor
  · rintro ⟨d, hd, -, hr, m, hm, rfl⟩
    have h := reads_of_foldlM hl hd
    rw [h.toOption_extraOf hk] at hm
    refine ⟨isSome_name? (readExtra_eq_some_iff.1 hm).1, h.once, fun s hs => ?_, fun m' he => ?_⟩
    · rw [hget s hs]
      exact h.content hs (hstart s hs) (hr s hs)
    · rw [← Option.some.inj he, hextra]
      exact hm
  · intro h
    have hm := h.extra _ rfl
    obtain ⟨d, hd, hd'⟩ := exists_reads start hl h.once h.fields fun e he =>
      hk.isSome ((readExtra_eq_some_iff.1 hm).1 e he)
    have hr : ∀ s ∈ slots, s.required = true → s.name ∈ d.given := fun s hs hq => by
      rw [hd'.given s hs]
      exact Slot.isSome_of_content (h.fields s hs) hq
    refine ⟨d, hd, (), hr, extra r, by rw [hd'.toOption_extraOf hk, hm],
      hl.ext _ _ (fun s hs => ?_) (hextra _ _)⟩
    rw [hget s hs]
    exact Option.some.inj ((hd'.content hs (hstart s hs) (hr s hs)).symm.trans (h.fields s hs))

end Extra

end JobConfig
