import JobConfig.Proofs.Schema.Records

/-!
# Writing records by the table

A record is written as the fields that hold something else than what is meant without them, and the
members that the schema does not name.
-/

namespace JobConfig

open EntryLike (name? datum)

namespace Shape

/-- What stands under a field, as a value. -/
def toValue : (sh : Shape) → sh.Content → Value
  | record r, x => r.toValue x
  | list r, l => .sequence (l.map r.toValue)
  | groups r, m => .mapping (m.entries.map fun g => entry g.1 (.sequence (g.2.map r.toValue)))
  | spec, o => (o.map PodSpec.toValue).getD .null
  | labels, m => .mapping (m.entries.map fun e => entry e.1 (.string e.2))
  | text _, s => .string s
  | texts _, l => .sequence (l.map .string)
  | flag, b => .bool b
  | number, n => .int n.toNat
  | reporter, o => o.getD .null

/-- Whether that is what is meant where nothing is written. -/
def isDefault : (sh : Shape) → sh.Content → Bool
  | record _, _ => false
  | list _, l => l.isEmpty
  | groups _, m => m.isEmpty
  | spec, o => o.isNone
  | labels, m => m.isEmpty
  | text _, s => s == ""
  | texts _, l => l.isEmpty
  | flag, b => !b
  | number, n => n == 0
  | reporter, o => o.isNone

theorem isEmpty_iff {α : Type} {m : KeyMap String α} : m.isEmpty = true ↔ m = ∅ := by
  rw [KeyMap.isEmpty, List.isEmpty_iff]
  constructor
  · intro h
    cases m
    cases h
    rfl
  · rintro rfl
    rfl

theorem isDefault_iff {sh : Shape} {c : sh.Content} :
    sh.isDefault c = true ↔ sh.default = some c := by
  cases sh with
  | record r => simp [isDefault, default]
  | list | texts => rw [isDefault, default, Option.some.injEq, List.isEmpty_iff, eq_comm]
  | groups | labels => rw [isDefault, default, Option.some.injEq, isEmpty_iff, eq_comm]
  | spec | reporter | flag => cases c <;> simp [isDefault, default]
  | text | number => rw [isDefault, default, Option.some.injEq, beq_iff_eq, eq_comm]

end Shape

/-- What is written of a field. -/
def Slot.write {ρ : Type} (s : Slot ρ) (r : ρ) : List (Value × Value) :=
  if !s.required && s.shape.isDefault (s.get r) then []
  else [entry s.name (s.shape.toValue (s.get r))]

/-- The members of a record that the schema does not name. -/
def RecordKind.extra (r : RecordKind) (x : r.Record) : Extra :=
  (r.extra? x).getD ∅

/-- The entries of a record in the order of the table. -/
def RecordKind.toEntries (r : RecordKind) (x : r.Record) : List (Value × Value) :=
  r.slots.flatMap (·.write x) ++ (r.extra x).toEntries

/-- The common fields are written before the members that the schema does not name. -/
theorem Job.toEntries_eq (j : Job) :
    j.toEntries = Job.slots.flatMap (·.write j) ++ j.extra.toEntries := by
  cases hs : j.spec <;>
    simp [toEntries, slots, Slot.write, Shape.isDefault, Shape.toValue, textEntry, mapEntry,
      numberEntry, optionEntry, hs]

theorem flatMap_write_lift {J : Type} [JobLike J] (j : J) :
    (Job.slots.map Slot.lift).flatMap (·.write j) =
      Job.slots.flatMap (·.write (JobLike.toJob j)) := by
  rw [List.flatMap_map]
  rfl

/-- The fields of a kind are written last. -/
theorem perm_jobEntries {J : Type} [JobLike J] (own : List (Slot J)) (j : J) :
    ((JobLike.toJob j).toEntries ++ own.flatMap (Slot.write · j)).Perm
      ((own ++ Job.slots.map Slot.lift).flatMap (Slot.write · j) ++
        (JobLike.toJob j).extra.toEntries) := by
  rw [Job.toEntries_eq, List.flatMap_append, flatMap_write_lift,
    List.append_assoc (List.flatMap _ own)]
  exact List.perm_append_comm

namespace RecordKind

/-- A record is written as its entries in some order. -/
theorem exists_toValue (r : RecordKind) (x : r.Record) :
    ∃ es, r.toValue x = .mapping es ∧ es.Perm (r.toEntries x) := by
  cases r with
  | envVar | volume | volumeMount => exact ⟨_, rfl, .refl _⟩
  | container =>
    refine ⟨_, rfl, .of_eq ?_⟩
    simp [toEntries, slots, Container.slots, Slot.write, Shape.isDefault, Shape.toValue, textEntry,
      listEntry, extra, extra?, toValue]
  | podSpec =>
    refine ⟨_, rfl, .of_eq ?_⟩
    simp [toEntries, slots, PodSpec.slots, Slot.write, Shape.isDefault, Shape.toValue, listEntry,
      extra, extra?, toValue]
  | ref =>
    refine ⟨_, rfl, .of_eq ?_⟩
    simp [toEntries, slots, Ref.slots, Slot.write, Shape.isDefault, Shape.toValue, textEntry,
      extra, extra?]
  | presubmit =>
    refine ⟨_, rfl, .trans (.of_eq ?_) (perm_jobEntries Presubmit.ownSlots x)⟩
    cases ha : x.alwaysRun <;> cases ho : x.optional <;> cases hr : x.skipReport <;>
      simp [Presubmit.ownSlots, Slot.write, Shape.isDefault, Shape.toValue, textEntry, flagEntry,
        listEntry, JobLike.toJob, ha, ho, hr]
  | postsubmit =>
    refine ⟨_, rfl, .trans (.of_eq ?_) (perm_jobEntries Postsubmit.ownSlots x)⟩
    simp [Postsubmit.ownSlots, Slot.write, Shape.isDefault, Shape.toValue, listEntry,
      JobLike.toJob]
  | periodic =>
    refine ⟨_, rfl, .trans (.of_eq ?_) (perm_jobEntries Periodic.ownSlots x)⟩
    cases hc : x.reporterConfig <;>
      simp [Periodic.ownSlots, Slot.write, Shape.isDefault, Shape.toValue, listEntry, optionEntry,
        JobLike.toJob, toValue, hc]
  | jobSet =>
    refine ⟨_, rfl, .of_eq ?_⟩
    simp [toEntries, slots, JobSet.slots, Slot.write, Shape.isDefault, Shape.toValue, groupsEntry,
      listEntry, extra, extra?, toValue, Extra.toEntries]
    rfl

end RecordKind

/-! ### What stands among the written entries -/

/-- Whether members can be those that the schema does not name. -/
structure IsExtra {ρ : Type} (slots : List (Slot ρ)) (m : Extra) : Prop where
  other : ∀ e ∈ m.entries, ∀ s ∈ slots, e.1 ≠ s.name
  keys : ∀ e ∈ m.entries, e.2.checkKeys.toOption = some ()

section Entries

variable {E ρ : Type} [EntryLike E] {slots : List (Slot ρ)} {m : Extra} {r : ρ}

/-- The members that were read are such members. -/
theorem Spells.isExtra {es : List E} (h : Spells slots (some m) es r) : IsExtra slots m := by
  obtain ⟨-, rfl⟩ := readExtra_eq_some_iff.1 (h.extra m rfl)
  have hread : ∀ e ∈ (KeyMap.ofList ((unnamed slots es).filterMap memberOf?)).entries,
      ∃ e' ∈ unnamed slots es, memberOf? e' = some e := fun e he =>
    List.mem_filterMap.1 (KeyMap.mem_of_mem_ofList (KeyMap.mem_entries_iff.1 he))
  refine ⟨fun e he s hs hn => ?_, fun e he => ?_⟩
  · obtain ⟨e', hmem, he'⟩ := hread e he
    refine slot?_eq_none_iff.1 (mem_unnamed.1 hmem).2 s hs ?_
    rw [← hn]
    exact (memberOf?_eq_some he').1
  · obtain ⟨e', -, he'⟩ := hread e he
    exact (memberOf?_eq_some he').2.2

theorem name?_entry (n : String) (v : Value) : name? (entry n v) = some n := rfl

theorem name?_of_mem_write {s : Slot ρ} {e : Value × Value} (h : e ∈ s.write r) :
    name? e = some s.name := by
  rw [Slot.write] at h
  split at h
  · cases h
  · rw [List.mem_singleton.1 h, name?_entry]

theorem mem_toEntries {e : Value × Value} (h : e ∈ m.toEntries) :
    ∃ p ∈ m.entries, entry p.1 p.2 = e :=
  List.mem_map.1 h

/-- The entries of a field are those that are written of it. -/
theorem filter_isNamed_written (hnd : (slots.map Slot.name).Nodup) (hm : IsExtra slots m)
    {s : Slot ρ} (hs : s ∈ slots) :
    (slots.flatMap (·.write r) ++ m.toEntries).filter (isNamed s.name) = s.write r := by
  have hextra : m.toEntries.filter (isNamed s.name) = [] := by
    refine List.filter_eq_nil_iff.2 fun e he hn => ?_
    obtain ⟨p, hp, rfl⟩ := mem_toEntries he
    rw [isNamed, name?_entry, beq_iff_eq, Option.some.injEq] at hn
    exact hm.other p hp s hs hn
  have hfield : ∀ s' ∈ slots,
      (s'.write r).filter (isNamed s.name) = if s'.name = s.name then s'.write r else [] := by
    intro s' _
    split
    · next hn =>
      refine List.filter_eq_self.2 fun e he => ?_
      rw [isNamed, name?_of_mem_write he, hn, beq_self_eq_true]
    · next hn =>
      refine List.filter_eq_nil_iff.2 fun e he hne => hn ?_
      rwa [isNamed, name?_of_mem_write he, beq_iff_eq, Option.some.injEq] at hne
  rw [List.filter_append, hextra, List.append_nil, List.filter_flatMap,
    List.flatMap_congr hfield,
    flatMap_eq_of_forall_ne (List.Nodup.of_map _ hnd) (.inl hs), if_pos rfl]
  intro s' hs' hne
  exact if_neg fun hn => hne (List.inj_on_of_nodup_map hnd hs' hs hn)

/-- The other entries are the members that the schema does not name. -/
theorem unnamed_written (hm : IsExtra slots m) :
    unnamed slots (slots.flatMap (·.write r) ++ m.toEntries) = m.toEntries := by
  have hfields : unnamed slots (slots.flatMap (·.write r)) = [] := by
    refine List.filter_eq_nil_iff.2 fun e he hn => ?_
    obtain ⟨s, hs, he⟩ := List.mem_flatMap.1 he
    exact slot?_eq_none_iff.1 (Option.isNone_iff_eq_none.1 hn) s hs (name?_of_mem_write he)
  have hextra : unnamed slots m.toEntries = m.toEntries := by
    refine List.filter_eq_self.2 fun e he => ?_
    obtain ⟨p, hp, rfl⟩ := mem_toEntries he
    rw [Option.isNone_iff_eq_none, slot?_eq_none_iff]
    intro s hs hn
    exact hm.other p hp s hs (Option.some.inj hn)
  rw [unnamed, List.filter_append]
  change unnamed slots _ ++ unnamed slots _ = _
  rw [hfields, hextra, List.nil_append]

theorem mapM_toEntries (hm : IsExtra slots m) : m.toEntries.mapM memberOf? = some m.entries := by
  refine mapM_map_eq_some fun p hp => ?_
  rw [memberOf?_eq (name?_entry p.1 p.2) (v := p.2) rfl, hm.keys p hp]
  rfl

theorem readExtra_written (hm : IsExtra slots m) :
    readExtra slots (slots.flatMap (·.write r) ++ m.toEntries) = some m := by
  rw [readExtra, unnamed_written hm, mapM_toEntries hm, Option.map_some, KeyMap.ofList_entries]

theorem nodup_toEntries (m : Extra) : (m.toEntries.map Prod.fst).Nodup := by
  have hkeys : m.toEntries.map Prod.fst = m.keys.map Value.string := by
    rw [Extra.toEntries, List.map_map, KeyMap.keys, List.map_map]
    rfl
  rw [hkeys]
  exact m.nodup_keys.map fun _ _ h => Value.string.inj h

/-- Entries without repeated keys have at most one of each name. -/
theorem length_filter_isNamed_le {es : List (Value × Value)} (h : (es.map Prod.fst).Nodup)
    (n : String) : (es.filter (isNamed n)).length ≤ 1 := by
  have hkeys : (es.filter (isNamed n)).map Prod.fst =
      List.replicate (es.filter (isNamed n)).length (.string n) := by
    refine List.eq_replicate_iff.2 ⟨List.length_map _, List.forall_mem_map.2 fun e he => ?_⟩
    rw [← name?_value_iff, ← beq_iff_eq]
    exact (List.mem_filter.1 he).2
  rw [← List.nodup_replicate (a := Value.string n), ← hkeys]
  exact h.sublist (List.filter_sublist.map Prod.fst)

end Entries

/-- The members of a record that was read are such members. -/
theorem RecordKind.isExtra {r : RecordKind} {E : Type} [EntryLike E] {es : List E} {x : r.Record}
    (h : Spells r.slots (r.extra? x) es x) : IsExtra r.slots (r.extra x) := by
  rw [extra]
  cases hm : r.extra? x with
  | some m =>
    rw [hm] at h
    exact h.isExtra
  | none => exact ⟨fun e he => (List.not_mem_nil he).elim, fun e he => (List.not_mem_nil he).elim⟩

end JobConfig
