import JobConfig.Proofs.Schema.Respelling
import JobConfig.Proofs.Schema.Writing
import Mathlib.Logic.Relation

/-!
# What is written is read again

A record that was read is written as a value from which the same record is read, whatever way it
was spelled.
-/

namespace JobConfig

open EntryLike (name? datum)

namespace Shape

/-- Whether what is read is read again from the value it is written as. -/
def RoundTrips (sh : Shape) : Prop :=
  ∀ v c, sh.read (.value v) = some c → sh.read (.value (sh.toValue c)) = some c

/-- The kinds of the records that stand under a field. -/
def kinds : Shape → List RecordKind
  | record r | list r | groups r => [r]
  | spec => [.podSpec]
  | labels | text _ | texts _ | flag | number | reporter => []

end Shape

/-! ### One record -/

section Record

variable {ρ : Type} {slots : List (Slot ρ)} {m? : Option Extra} {x : ρ}
  {es : List (Value × Value)}

/-- A field that was read holds what is read from its entry, if it has one. -/
theorem Slot.content_write {s : Slot ρ} (hs : s.shape.RoundTrips) {o : Option Value}
    (h : s.content (o.map .value) = some (s.get x)) :
    s.content (bound? s.name (s.write x)) = some (s.get x) := by
  rw [Slot.write]
  cases hd : !s.required && s.shape.isDefault (s.get x) with
  | true =>
    obtain ⟨hq, hd⟩ := Bool.and_eq_true_iff.1 hd
    rw [if_pos rfl, bound?, List.filter_nil, List.getLast?_nil, Option.map_none, content,
      Option.elim_none, absent, if_neg (by simpa using hq)]
    exact Shape.isDefault_iff.1 hd
  | false =>
    have hread : ∃ v, s.shape.read (.value v) = some (s.get x) := by
      cases o with
      | some v => exact ⟨v, h⟩
      | none =>
        -- what is meant without an entry would not have been written
        rw [Option.map_none, content, Option.elim_none, absent] at h
        cases hq : s.required with
        | true => simp [hq] at h
        | false =>
          rw [hq, if_neg Bool.false_ne_true, ← Shape.isDefault_iff] at h
          simp [hq, h] at hd
    obtain ⟨v, hv⟩ := hread
    rw [if_neg Bool.false_ne_true, bound?, List.filter_cons, isNamed_entry, decide_eq_true rfl]
    exact hs v _ hv

/-- The entries that are written of a record spell it. -/
theorem Spells.written (h : Spells slots m? es x) (hnd : (slots.map Slot.name).Nodup)
    (hm : IsExtra slots (m?.getD ∅)) (hs : ∀ s ∈ slots, s.shape.RoundTrips) :
    Spells slots m? (slots.flatMap (·.write x) ++ (m?.getD ∅).toEntries) x where
  named := by
    rw [List.forall_mem_append]
    constructor
    · rintro e he
      obtain ⟨s, -, he⟩ := List.mem_flatMap.1 he
      rw [name?_of_mem_write he]
      rfl
    · rintro e he
      obtain ⟨p, -, rfl⟩ := mem_toEntries he
      rfl
  once s hm' := by
    rw [filter_isNamed_written hnd hm hm', Slot.write]
    split <;> simp
  fields s hm' := by
    have hwritten := filter_isNamed_written (r := x) hnd hm hm'
    have hunder : bound? s.name (slots.flatMap (·.write x) ++ (m?.getD ∅).toEntries) =
        bound? s.name (s.write x) := by
      rw [bound?, hwritten, bound?, List.filter_eq_self.2]
      intro e he
      rw [isNamed, name?_of_mem_write he, beq_self_eq_true]
    rw [hunder]
    refine Slot.content_write (o := ((es.filter (isNamed s.name)).getLast?).map (·.2)) (hs s hm') ?_
    rw [Option.map_map]
    exact h.fields s hm'
  extra m hm' := by
    subst hm'
    exact readExtra_written hm

end Record

namespace RecordKind

/-- A record round-trips if what stands under its fields does. -/
theorem roundTrips_of_slots (r : RecordKind) (hs : ∀ s ∈ r.slots, s.shape.RoundTrips) :
    (Shape.record r).RoundTrips := by
  intro v x h
  obtain ⟨es, hes⟩ := exists_spells h
  have hm := isExtra hes
  obtain ⟨es', hx, hp⟩ := r.exists_toValue x
  have hw : Spells r.slots (r.extra? x) (r.toEntries x) x := hes.written r.nodup_names hm hs
  have hnd : ((unnamed r.slots (r.toEntries x)).map Prod.fst).Nodup := by
    rw [toEntries, unnamed_written hm]
    exact nodup_toEntries _
  change r.read (.value (r.toValue x)) = some x
  rw [hx, read_mapping_iff]
  exact hw.perm hp.symm hnd

/-- How deep records stand in records of a kind. -/
def depth : RecordKind → Nat
  | envVar | volumeMount | volume | ref => 0
  | container => 1
  | podSpec => 2
  | presubmit | postsubmit | periodic => 3
  | jobSet => 4

theorem depth_lt (r : RecordKind) : ∀ s ∈ r.slots, ∀ r' ∈ s.shape.kinds, r'.depth < r.depth := by
  cases r <;> decide

end RecordKind

/-! ### What stands under a field -/

namespace Shape

/-- The items of a value are values. -/
theorem exists_of_itemsOf_value {strict : Bool} {v : Value} {ds : List Datum}
    (h : (Datum.value v).itemsOf strict = some ds) : ∃ vs : List Value, vs.map .value = ds := by
  cases strict with
  | true =>
    cases v with
    | sequence vs => exact ⟨vs, Option.some.inj h⟩
    | _ => cases h
  | false =>
    rw [Datum.itemsOf, if_neg Bool.false_ne_true, Datum.asItems, Datum.untagged] at h
    cases hv : v.untagged with
    | sequence vs => exact ⟨vs, by simpa [hv, Except.toOption] using h⟩
    | null => exact ⟨[], by simpa [hv, Except.toOption] using h⟩
    | _ => simp [hv, Except.toOption] at h

theorem readList_value_eq_some {r : RecordKind} {v : Value} {l : List r.Record}
    (h : (Shape.list r).read (.value v) = some l) : ∀ x ∈ l, ∃ v, r.read (.value v) = some x := by
  obtain ⟨ds, hds, hl⟩ := Option.bind_eq_some_iff.1 h
  obtain ⟨vs, rfl⟩ := exists_of_itemsOf_value hds
  obtain ⟨-, rfl⟩ := mapM_eq_some_iff.1 hl
  intro x hx
  obtain ⟨d, hd, hx⟩ := List.mem_filterMap.1 hx
  obtain ⟨v, -, rfl⟩ := List.mem_map.1 hd
  exact ⟨v, hx⟩

theorem roundTrips_list {r : RecordKind} (hr : (Shape.record r).RoundTrips) :
    (Shape.list r).RoundTrips := by
  intro v l h
  rw [toValue, read_list_sequence, mapM_map_eq_some fun x hx => ?_]
  obtain ⟨w, hw⟩ := readList_value_eq_some h x hx
  exact hr w x hw

theorem roundTrips_groups {r : RecordKind} (hr : (Shape.record r).RoundTrips) :
    (Shape.groups r).RoundTrips := by
  intro v m h
  obtain ⟨ds, hds, hm⟩ := Option.bind_eq_some_iff.1 h
  obtain ⟨es, rfl⟩ := Datum.exists_of_entries?_value hds
  rw [List.mapM_map] at hm
  obtain ⟨gs, hgs, rfl⟩ := Option.map_eq_some_iff.1 hm
  obtain ⟨-, rfl⟩ := mapM_eq_some_iff.1 hgs
  -- each grouping that is left was read from one of the entries
  have hlist : ∀ g ∈ (KeyMap.ofList (es.filterMap (readGroupValue r))).entries,
      ∃ w, (Shape.list r).read (.value w) = some g.2 := by
    intro g hg
    obtain ⟨e, -, he⟩ := List.mem_filterMap.1
      (KeyMap.mem_of_mem_ofList (KeyMap.mem_entries_iff.1 hg))
    exact ⟨e.2, (of_readGroup he).2⟩
  rw [toValue, read_groups_mapping, mapM_map_eq_some fun g hg => ?_,
    Option.map_some, KeyMap.ofList_entries]
  obtain ⟨w, hw⟩ := hlist g hg
  have hg := roundTrips_list hr w g.2 hw
  rw [toValue] at hg
  change (readList r (.value (.sequence (g.2.map r.toValue)))).bind _ = _
  simp only [read] at hg
  rw [hg]
  rfl

theorem roundTrips_spec (hp : (Shape.record .podSpec).RoundTrips) : Shape.spec.RoundTrips := by
  intro v o h
  cases o with
  | none => rfl
  | some s =>
    have hv : v ≠ .null := by
      rintro rfl
      cases h
    rw [read_spec_of_ne_null hv, Option.map_eq_some_iff] at h
    obtain ⟨s', hs, hss⟩ := h
    obtain rfl := Option.some.inj hss
    have hw : PodSpec.toValue s' ≠ .null := nofun
    rw [toValue, Option.map_some, Option.getD_some, read_spec_of_ne_null hw]
    exact congrArg _ (hp v s' hs)

theorem roundTrips_labels : Shape.labels.RoundTrips := by
  intro v m _
  have hread : (m.entries.map fun e => entry e.1 (.string e.2)).mapM readLabel = some m.entries :=
    mapM_map_eq_some fun _ _ => rfl
  change ((m.entries.map fun e => entry e.1 (.string e.2)).mapM readLabel).map .ofList = some m
  rw [hread, Option.map_some, KeyMap.ofList_entries]

theorem roundTrips_texts (strict : Bool) : (Shape.texts strict).RoundTrips := by
  intro v l _
  have hitems : (Datum.value (.sequence (l.map .string))).itemsOf strict =
      some ((l.map Value.string).map .value) := by
    cases strict <;> rfl
  rw [toValue, read, hitems, Option.bind_some, List.map_map,
    mapM_map_eq_some fun s _ => ?_]
  cases strict <;> rfl

theorem roundTrips_number : Shape.number.RoundTrips := by
  intro v n _
  have hn : 0 ≤ (n.toNat : Int) ∧ (n.toNat : Int) < UInt32.size :=
    ⟨Int.natCast_nonneg _, by exact_mod_cast n.toNat_lt_size⟩
  have hread : Value.asNumber (.int n.toNat) = .ok n := by
    rw [Value.asNumber, if_pos hn, Int.toNat_natCast, UInt32.ofNat_toNat]
  rw [toValue, read, Datum.toOption_toValue_value, Option.bind_some, hread]
  rfl

theorem roundTrips_reporter : Shape.reporter.RoundTrips := by
  intro v o h
  cases o with
  | none => rfl
  | some w =>
    by_cases hv : v = .null
    · rw [hv] at h
      cases h
    · have hread : Shape.reporter.read (.value v) = some (some v) := by
        cases v with
        | null => exact absurd rfl hv
        | _ => rfl
      rw [hread] at h
      obtain rfl : v = w := Option.some.inj (Option.some.inj h)
      exact hread

/-- A shape round-trips if the records that stand there do. -/
theorem roundTrips_of_kinds {sh : Shape} (h : ∀ r ∈ sh.kinds, (Shape.record r).RoundTrips) :
    sh.RoundTrips := by
  cases sh with
  | record r => exact h r (by simp [kinds])
  | list r => exact roundTrips_list (h r (by simp [kinds]))
  | groups r => exact roundTrips_groups (h r (by simp [kinds]))
  | spec => exact roundTrips_spec (h .podSpec (by simp [kinds]))
  | labels => exact roundTrips_labels
  | text strict =>
    intro v s _
    cases strict <;> rfl
  | texts strict => exact roundTrips_texts strict
  | flag => exact fun _ _ _ => rfl
  | number => exact roundTrips_number
  | reporter => exact roundTrips_reporter

end Shape

/-- Every record round-trips, by induction on how deep records stand in it. -/
theorem RecordKind.roundTrips (r : RecordKind) : (Shape.record r).RoundTrips :=
  r.roundTrips_of_slots fun s hs => Shape.roundTrips_of_kinds fun r' hr =>
    have := r.depth_lt s hs r' hr
    RecordKind.roundTrips r'
termination_by r.depth

/-! ### Job sets -/

namespace JobSet

theorem toOption_ofValue (v : Value) :
    (ofValue v).toOption = (Shape.record .jobSet).read (.value v) := rfl

/-- A job set that was read is read again from what it is written as, and from every other spelling
of what it was read from. -/
theorem ofValue_spellings {v : Value} {s : JobSet} (h : ofValue v = .ok s) :
    ofValue s.toValue = .ok s ∧
      ∀ w, Relation.EqvGen (Respells (.record .jobSet)) v w → ofValue w = .ok s := by
  rw [← toOption_eq_some_iff, toOption_ofValue] at h
  refine ⟨?_, fun w hw => ?_⟩
  · rw [← toOption_eq_some_iff, toOption_ofValue]
    exact RecordKind.jobSet.roundTrips v s h
  · have hread : ∀ {v w}, Relation.EqvGen (Respells (.record .jobSet)) v w →
        (Shape.record .jobSet).read (.value v) = (Shape.record .jobSet).read (.value w) := by
      intro v w hw
      induction hw with
      | rel v w h => exact h.read_eq
      | refl v => rfl
      | symm v w _ ih => exact ih.symm
      | trans u v w _ _ ih ih' => exact ih.trans ih'
    rw [← toOption_eq_some_iff, toOption_ofValue, ← hread hw, h]

/-- A job set of one postsubmit with a flag that is not one of its fields, after other entries. -/
def flaggedSet (es : List (Value × Value)) : Value :=
  let job := .mapping (es ++ [entry "always_run" (.bool true), entry "name" (.string "a")])
  .mapping [entry "postsubmits" (.mapping [entry "o/r" (.sequence [job])])]

/-- The flag is kept beside the fields, whether or not empty labels are written. -/
theorem ofValue_spellings_flaggedSet :
    let extra : Extra := .ofList [("always_run", .bool true)]
    let s : JobSet := { postsubmits := .ofList [("o/r", [{ name := "a", extra }])] }
    ofValue (flaggedSet []) = .ok s ∧ ofValue s.toValue = .ok s ∧
      ofValue (flaggedSet [entry "labels" (.mapping [])]) = .ok s := by
  intro extra s
  have h : ofValue (flaggedSet []) = .ok s := by decide
  let es := [entry "always_run" (.bool true), entry "name" (.string "a")]
  have hjob : Respells (.record .postsubmit) (.mapping es)
      (.mapping (entry "labels" (.mapping []) :: es)) :=
    .default (s := RecordKind.postsubmit.slots[2]) (List.getElem_mem _) rfl (by decide)
  have hset : Respells (.record .jobSet) (flaggedSet [])
      (flaggedSet [entry "labels" (.mapping [])]) :=
    @Respells.member .jobSet JobSet.slots[1] [] [] _ _ (List.getElem_mem _)
      (@Respells.group _ (.string "o/r") [] [] _ _ (@Respells.item _ [] [] _ _ hjob))
  obtain ⟨hs, hw⟩ := ofValue_spellings h
  exact ⟨h, hs, hw _ (.rel _ _ hset)⟩

end JobSet

end JobConfig
