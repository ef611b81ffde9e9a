import JobConfig.Proofs.Schema.Records

/-!
# Data and their values

A datum that has a value has the parts of that value: the same items, and the same entries under
the names that are strings in the value. A record is therefore what the entries of a datum spell,
even if it is read from the value.
-/

namespace JobConfig

open EntryLike (name? datum)

/-! ### Scalars -/

/-- Whether a scalar of a text can stand for a value. -/
def Value.isScalarOf (text : String) : Value → Bool
  | .string s => s == text
  | .null | .bool _ | .int _ | .float _ => true
  | .sequence _ | .mapping _ | .tagged .. => false

theorem Scalar.isScalarOf_of_intMeaning? {i : Int} {m : Meaning} {v : Value} {text : String}
    (h : intMeaning? i = some m) (hv : m = .value v) : v.isScalarOf text = true := by
  subst hv
  rw [intMeaning?] at h
  split at h
  · obtain rfl : .int i = v := Meaning.value.inj (Option.some.inj h)
    rfl
  · split at h <;> cases h

theorem Scalar.isScalarOf_of_plainMeaning {s : String} {v : Value}
    (h : plainMeaning s = .value v) : v.isScalarOf s = true := by
  simp only [plainMeaning] at h
  split at h
  · cases h
    rfl
  · split at h
    · cases h
      rfl
    · split at h
      · next m hm =>
        obtain ⟨i, -, hi⟩ := Option.bind_eq_some_iff.1 hm
        exact isScalarOf_of_intMeaning? hi h
      · split at h <;> cases h
        · rfl
        · exact beq_self_eq_true s

namespace Written

variable {w : Written} {v : Value}

theorem isScalarOf_of_untaggedMeaning (h : w.untaggedMeaning = .value v) :
    v.isScalarOf w.text = true := by
  rw [untaggedMeaning] at h
  split at h
  · exact Scalar.isScalarOf_of_plainMeaning h
  · cases h
    exact beq_self_eq_true _

theorem isScalarOf_of_meaning (h : w.meaning = .value v) : v.isScalarOf w.text = true := by
  rw [meaning] at h
  split at h
  · exact isScalarOf_of_untaggedMeaning h
  split at h
  · split at h <;> cases h
    rfl
  split at h
  · cases hi : (Scalar.int? w.text.toList).bind Scalar.intMeaning? with
    | none =>
      rw [hi] at h
      cases h
    | some m =>
      obtain ⟨i, -, hm⟩ := Option.bind_eq_some_iff.1 hi
      rw [hi, Option.getD_some] at h
      exact Scalar.isScalarOf_of_intMeaning? hm h
  split at h
  · split at h <;> cases h
    rfl
  split at h
  · split at h <;> cases h
    rfl
  split at h
  · exact isScalarOf_of_untaggedMeaning h
  · cases h
    exact beq_self_eq_true _

theorem isScalarOf_of_value {expected : String} (h : w.value expected = .ok v) :
    v.isScalarOf w.text = true := by
  rw [value] at h
  split at h <;> cases h
  next hm => exact isScalarOf_of_meaning hm

end Written

/-! ### Collections -/

namespace Datum

variable {d : Datum} {v : Value}

/-- The value of a datum, wherever it stands. -/
def value? (d : Datum) : Option Value :=
  (d.toValue .root).toOption

theorem value?_scalar {w : Written} (h : (scalar w).value? = some v) :
    v.isScalarOf w.text = true := by
  rw [value?, toValue, toOption_placed] at h
  split at h
  · cases h
  · exact Written.isScalarOf_of_value (toOption_eq_some_iff.1 h)

theorem toOption_toValues_eq (p : Place) (i : Nat) (ds : List Datum) :
    (toValues p i ds).toOption = ds.mapM value? := by
  induction ds generalizing i with
  | nil => rfl
  | cons d ds ih =>
    simp only [toValues, toOption_bind, List.mapM_cons, ih, toOption_toValue (.item p i) .root]
    rfl

/-- The values of the key and of what it is bound to. -/
def entryValue? (e : Datum × Datum) : Option (Value × Value) := do
  let key ← e.1.value?
  let v ← e.2.value?
  return (key, v)

theorem toOption_toValueEntries_eq (p : Place) (es : List (Datum × Datum)) :
    (toValueEntries p es).toOption = es.mapM entryValue? := by
  induction es with
  | nil => rfl
  | cons e es ih =>
    obtain ⟨k, x⟩ := e
    simp only [toValueEntries, toOption_bind, List.mapM_cons, ih, toOption_toValue p .root,
      toOption_toValue (placeUnder p k) .root, entryValue?, value?]
    cases (k.toValue .root).toOption <;> cases (x.toValue .root).toOption <;> rfl

theorem value?_sequence {tag : Option String} {ds : List Datum}
    (h : (sequence tag ds).value? = some v) :
    ∃ vs, ds.mapM value? = some vs ∧ .sequence vs = v := by
  rw [value?, toValue, apply_ite Except.toOption, Except.toOption, Option.ite_none_left_eq_some,
    toOption_map, toOption_toValues_eq] at h
  exact Option.map_eq_some_iff.1 h.2

theorem value?_mapping {tag : Option String} {es : List (Datum × Datum)}
    (h : (mapping tag es).value? = some v) :
    ∃ vs, es.mapM entryValue? = some vs ∧ .mapping vs = v := by
  rw [value?, toValue, apply_ite Except.toOption, Except.toOption, Option.ite_none_left_eq_some,
    toOption_map, toOption_toValueEntries_eq] at h
  exact Option.map_eq_some_iff.1 h.2

/-- The items of a value are the values of items. -/
theorem items_of_value? {vs : List Value} (h : d.value? = some (.sequence vs)) :
    ∃ ps : List (Datum × Value), d.asItems.toOption = some (ps.map Prod.fst) ∧
      vs = ps.map Prod.snd ∧ ∀ p ∈ ps, p.1.value? = some p.2 := by
  cases d with
  | value w =>
    obtain rfl : w = .sequence vs := Option.some.inj h
    refine ⟨vs.map fun v => (.value v, v), ?_, ?_, ?_⟩
    · rw [List.map_map]
      rfl
    · rw [List.map_map]
      exact vs.map_id.symm
    · exact List.forall_mem_map.2 fun v _ => rfl
  | scalar w => exact absurd (value?_scalar h) (by simp [Value.isScalarOf])
  | sequence tag ds =>
    obtain ⟨_, hvs, heq⟩ := value?_sequence h
    obtain rfl := Value.sequence.inj heq
    obtain ⟨ps, rfl, rfl, hps⟩ := exists_pairs_of_mapM hvs
    exact ⟨ps, rfl, rfl, hps⟩
  | mapping tag es =>
    obtain ⟨_, -, heq⟩ := value?_mapping h
    cases heq
  | broken => cases h

/-- The entries of a value are the values of entries. -/
theorem entries_of_value? {es : List (Value × Value)} (h : d.value? = some (.mapping es)) :
    ∃ ps : List ((Datum × Datum) × (Value × Value)), d.entries? = some (ps.map Prod.fst) ∧
      es = ps.map Prod.snd ∧ ∀ p ∈ ps, entryValue? p.1 = some p.2 := by
  cases d with
  | value w =>
    obtain rfl : w = .mapping es := Option.some.inj h
    refine ⟨es.map fun e => ((.value e.1, .value e.2), e), ?_, ?_, ?_⟩
    · rw [List.map_map]
      rfl
    · rw [List.map_map]
      exact es.map_id.symm
    · exact List.forall_mem_map.2 fun v _ => rfl
  | scalar w => exact absurd (value?_scalar h) (by simp [Value.isScalarOf])
  | sequence tag ds =>
    obtain ⟨_, -, heq⟩ := value?_sequence h
    cases heq
  | mapping tag ds =>
    obtain ⟨_, hvs, heq⟩ := value?_mapping h
    obtain rfl := Value.mapping.inj heq
    obtain ⟨ps, rfl, rfl, hps⟩ := exists_pairs_of_mapM hvs
    exact ⟨ps, rfl, rfl, hps⟩
  | broken => cases h

/-- A key that is a string in the value is the text of the datum. -/
theorem keyOf?_of_value? {s : String} (h : d.value? = some (.string s)) :
    d.keyOf? = some s := by
  cases d with
  | value w =>
    obtain rfl : w = .string s := Option.some.inj h
    rfl
  | scalar w =>
    obtain rfl : s = w.text := by simpa [Value.isScalarOf] using value?_scalar h
    rfl
  | sequence tag ds =>
    obtain ⟨_, -, heq⟩ := value?_sequence h
    cases heq
  | mapping tag es =>
    obtain ⟨_, -, heq⟩ := value?_mapping h
    cases heq
  | broken => cases h

theorem of_entryValue? {e : Datum × Datum} {e' : Value × Value} (h : entryValue? e = some e') :
    e.1.value? = some e'.1 ∧ e.2.value? = some e'.2 := by
  obtain ⟨key, hk, h⟩ := Option.bind_eq_some_iff.1 h
  obtain ⟨v, hv, h⟩ := Option.bind_eq_some_iff.1 h
  obtain rfl := Option.some.inj h
  exact ⟨hk, hv⟩

theorem name?_of_entryValue? {e : Datum × Datum} {e' : Value × Value}
    (h : entryValue? e = some e') (hn : (name? e').isSome) : name? e = name? e' := by
  obtain ⟨key, v⟩ := e'
  cases key with
  | string s => exact keyOf?_of_value? (of_entryValue? h).1
  | _ => cases hn

end Datum

/-! ### Records -/

namespace RecordKind

theorem read_of_isStrict {r : RecordKind} (hr : r.isStrict = true) (d : Datum) :
    r.read d = d.value?.bind fun v => r.read (.value v) := by
  cases r with
  | podSpec | container | volume | volumeMount | envVar => rfl
  | jobSet | presubmit | postsubmit | periodic | ref => cases hr

theorem isStrict_slots {r : RecordKind} (hr : r.isStrict = true) :
    ∀ s ∈ r.slots, s.shape.isStrict = true := by
  revert hr
  cases r <;> decide

/-- A record that is read from a value is a mapping. -/
theorem exists_mapping {r : RecordKind} (hr : r.isStrict = true) {v : Value} {x : r.Record}
    (h : r.read (.value v) = some x) : ∃ es, v = .mapping es := by
  cases v with
  | mapping es => exact ⟨es, rfl⟩
  | _ =>
    cases r with
    | podSpec | container | volume | volumeMount | envVar => cases h
    | jobSet | presubmit | postsubmit | periodic | ref => cases hr

/-- Every record is what the entries of its datum spell. -/
theorem exists_entries {r : RecordKind} {d : Datum} {x : r.Record} (h : r.read d = some x) :
    ∃ es, d.entries? = some es ∧ Spells r.slots (r.extra? x) es x := by
  cases hr : r.isStrict with
  | false => exact (read_eq_some_iff hr).1 h
  | true =>
    rw [read_of_isStrict hr, Option.bind_eq_some_iff] at h
    obtain ⟨v, hv, hread⟩ := h
    obtain ⟨es, rfl⟩ := exists_mapping hr hread
    obtain ⟨ps, hps, rfl, hvalue⟩ := Datum.entries_of_value? hv
    have hs := read_mapping_iff.1 hread
    refine ⟨_, hps, Twins.spells (f := Prod.snd) (g := Prod.fst) (fun p hp => Twins.symm ?_) hs⟩
    have hn := Datum.name?_of_entryValue? (hvalue p hp) (hs.named _ (List.mem_map_of_mem hp))
    obtain ⟨-, hv⟩ := Datum.of_entryValue? (hvalue p hp)
    refine ⟨hn, fun s hs => ?_, ?_⟩
    · rw [Shape.read_of_strict (isStrict_slots hr s hs)]
      change (datum p.1).value?.bind _ = _
      rw [show (datum p.1).value? = some p.2.2 from hv]
      rfl
    · rw [memberOf?, hn]
      change ((name? p.2).bind fun name => (datum p.1).value?.bind _) = _
      rw [show (datum p.1).value? = some p.2.2 from hv]
      rfl

end RecordKind

end JobConfig
