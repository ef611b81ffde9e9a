import JobConfig.Proofs.Schema.Reading

/-!
# The records of the schema

Every reader of a record reads just what its entries spell.
-/

namespace JobConfig

open EntryLike (name? datum)

/-! ### Records that are read from values -/

section Strict

variable {es : List (Value × Value)}

theorem toOption_ofValues {ρ : Type} {fields : List (Field Fault Value ρ)} {slots : List (Slot ρ)}
    (h : List.Forall₂ (Field.Fits .value) fields slots) (start : ρ) :
    (Draft.ofValues fields es start).toOption =
      es.foldlM (stepSlots slots keepValue) { record := start } := by
  rw [Draft.ofValues, toOption_foldlM]
  simp only [toOption_stepValue h]

theorem EnvVar.fits : List.Forall₂ (Field.Fits .value) EnvVar.fields EnvVar.slots :=
  .cons ⟨rfl, fun v => toOption_map _ v.asString⟩ .nil

theorem EnvVar.spells_iff {r : EnvVar} : (EnvVar.ofValue false (.mapping es)).toOption = some r ↔
    Spells EnvVar.slots (some r.extra) es r := by
  rw [← JobConfig.spells_iff { name := "" } ["name"] (fun r m => { r with extra := m })
    EnvVar.isLayout keepsExtra_keepValue
    (by simp [slots, nameSlots]) rfl (by simp [slots, nameSlots]) fun _ _ => rfl,
    ← toOption_ofValues EnvVar.fits]
  simp only [EnvVar.ofValue, toOption_bind]
  rfl

theorem VolumeMount.fits :
    List.Forall₂ (Field.Fits .value) VolumeMount.fields VolumeMount.slots :=
  .cons ⟨rfl, fun v => toOption_map _ v.asString⟩ .nil

theorem VolumeMount.spells_iff {r : VolumeMount} :
    (VolumeMount.ofValue false (.mapping es)).toOption = some r ↔
      Spells VolumeMount.slots (some r.extra) es r := by
  rw [← JobConfig.spells_iff { name := "" } ["name"] (fun r m => { r with extra := m })
    VolumeMount.isLayout keepsExtra_keepValue
    (by simp [slots, nameSlots]) rfl (by simp [slots, nameSlots]) fun _ _ => rfl,
    ← toOption_ofValues VolumeMount.fits]
  simp only [VolumeMount.ofValue, toOption_bind]
  rfl

theorem Volume.fits : List.Forall₂ (Field.Fits .value) Volume.fields Volume.slots :=
  .cons ⟨rfl, fun v => toOption_map _ v.asString⟩ .nil

theorem Volume.spells_iff {r : Volume} : (Volume.ofValue false (.mapping es)).toOption = some r ↔
    Spells Volume.slots (some r.extra) es r := by
  rw [← JobConfig.spells_iff { name := "" } ["name"] (fun r m => { r with extra := m })
    Volume.isLayout keepsExtra_keepValue
    (by simp [slots, nameSlots]) rfl (by simp [slots, nameSlots]) fun _ _ => rfl,
    ← toOption_ofValues Volume.fits]
  simp only [Volume.ofValue, toOption_bind]
  rfl

theorem Container.fits :
    List.Forall₂ (Field.Fits .value) (Container.fields false) Container.slots := by
  have htexts : ∀ v : Value, (v.asListOf false Value.asString).toOption =
      (Shape.texts true).read (.value v) := Datum.toOption_asListOf fun _ => rfl
  refine .cons ⟨rfl, fun v => toOption_map _ _⟩ <| .cons ⟨rfl, fun v => ?_⟩ <|
    .cons ⟨rfl, fun v => ?_⟩ <| .cons ⟨rfl, fun v => ?_⟩ <| .cons ⟨rfl, fun v => ?_⟩ .nil
  · rw [toOption_map, htexts]
  · rw [toOption_map, htexts]
  · rw [toOption_map, Datum.toOption_asListOf (f := RecordKind.envVar.read) fun _ => rfl]
    rfl
  · rw [toOption_map, Datum.toOption_asListOf (f := RecordKind.volumeMount.read) fun _ => rfl]
    rfl

theorem Container.spells_iff {r : Container} :
    (Container.ofValue false (.mapping es)).toOption = some r ↔
      Spells Container.slots (some r.extra) es r := by
  rw [← JobConfig.spells_iff {} [] (fun r m => { r with extra := m })
    Container.isLayout keepsExtra_keepValue (by simp [slots, Shape.default]) rfl
    (by simp [slots]) fun _ _ => rfl, ← toOption_ofValues Container.fits]
  simp only [Container.ofValue, toOption_bind]
  rfl

theorem PodSpec.fits : List.Forall₂ (Field.Fits .value) (PodSpec.fields false) PodSpec.slots := by
  refine .cons ⟨rfl, fun v => ?_⟩ <| .cons ⟨rfl, fun v => ?_⟩ .nil
  · rw [toOption_map, Datum.toOption_asListOf (f := RecordKind.volume.read) fun _ => rfl]
    rfl
  · rw [toOption_map, Datum.toOption_asListOf (f := RecordKind.container.read) fun _ => rfl]
    rfl

theorem PodSpec.spells_iff {r : PodSpec} :
    (PodSpec.ofValue false (.mapping es)).toOption = some r ↔
      Spells PodSpec.slots (some r.extra) es r := by
  rw [← JobConfig.spells_iff {} [] (fun r m => { r with extra := m })
    PodSpec.isLayout keepsExtra_keepValue (by simp [slots, Shape.default]) rfl
    (by simp [slots]) fun _ _ => rfl, ← toOption_ofValues PodSpec.fits]
  simp only [PodSpec.ofValue, toOption_bind]
  rfl

theorem toOption_asStringMap (v : Value) :
    v.asStringMap.toOption = Shape.labels.read (.value v) := by
  cases v with
  | mapping es =>
    have hstep : ∀ (m : KeyMap String String) (e : Value × Value),
        (do return m.insert (← e.1.asString) (← e.2.asString) : Except Fault _).toOption =
          (Shape.readLabel e).map fun p => m.insert p.1 p.2 := by
      intro m e
      simp only [toOption_bind, Shape.readLabel]
      cases e.1.asString.toOption with
      | none => rfl
      | some n => cases e.2.asString.toOption <;> rfl
    rw [Value.asStringMap, toOption_bind, Value.asEntries, Except.toOption, Option.bind_some,
      toOption_foldlM]
    simp only [hstep]
    exact foldlM_insert Shape.readLabel es ∅
  | _ => rfl

theorem Job.fits : List.Forall₂ (Field.Fits .value) Job.fields Job.slots := by
  refine .cons ⟨rfl, fun v => toOption_map _ _⟩ <| .cons ⟨rfl, fun v => ?_⟩ <|
    .cons ⟨rfl, fun v => toOption_map _ _⟩ <| .cons ⟨rfl, fun v => toOption_map _ _⟩ <|
    .cons ⟨rfl, fun v => toOption_map _ _⟩ .nil
  rw [toOption_map, toOption_asStringMap]

theorem Job.spells_iff {r : Job} :
    (Job.ofEntries es).toOption = some r ↔ Spells Job.slots (some r.extra) es r := by
  rw [← JobConfig.spells_iff { name := "" } ["name"] (fun r m => { r with extra := m })
    Job.isLayout keepsExtra_keepValue
    (by simp [slots, Shape.default]) rfl (by simp [slots]) fun _ _ => rfl,
    ← toOption_ofValues Job.fits]
  simp only [Job.ofEntries, toOption_bind]
  rfl

end Strict

/-! ### Records that are read from data -/

theorem toOption_asEntries (d : Datum) (expected expected' : String) :
    (d.asEntries expected).toOption = (d.asEntries expected').toOption := by
  rw [Datum.asEntries, Datum.asEntries]
  cases d.untagged with
  | value v => cases v <;> rfl
  | scalar w =>
    dsimp only
    split <;> rfl
  | sequence | mapping | broken => rfl

/-- The entries of a datum. -/
def Datum.entries? (d : Datum) : Option (List (Datum × Datum)) :=
  (d.asEntries "a map").toOption

section Data

variable {p : Place} {d : Datum}

theorem toOption_ofData {ρ : Type} {fields : Place → List (Field Misread Datum ρ)}
    {slots : List (Slot ρ)} (h : ∀ q, List.Forall₂ (Field.Fits id) (fields q) slots)
    (p : Place) (es : List (Datum × Datum)) (start : ρ) :
    (Draft.ofData fields p es start).toOption =
      es.foldlM (stepSlots slots keepDatum) { record := start } := by
  rw [Draft.ofData, toOption_foldlM]
  simp only [toOption_stepDatum h]

theorem Ref.fits (q : Place) : List.Forall₂ (Field.Fits id) (Ref.fields q) Ref.slots := by
  refine .cons ⟨rfl, fun x => ?_⟩ <| .cons ⟨rfl, fun x => ?_⟩ <| .cons ⟨rfl, fun x => ?_⟩ .nil
  all_goals
    rw [toOption_map, Datum.toOption_readText]
    rfl

theorem Ref.read_eq_some_iff {r : Ref} : (Ref.read p d).toOption = some r ↔
    ∃ es, d.entries? = some es ∧ Spells Ref.slots (some r.extra) es r := by
  rw [Ref.read, toOption_bind, toOption_placed, toOption_asEntries _ _ "a map",
    Option.bind_eq_some_iff]
  refine exists_congr fun es => and_congr_right fun _ => ?_
  rw [← JobConfig.spells_iff { org := "", repo := "" } ["org", "repo"]
    (fun r m => { r with extra := m }) Ref.isLayout keepsExtra_keepDatum
    (by simp [slots, Shape.default]) rfl (by simp [slots]) fun _ _ => rfl,
    ← toOption_ofData Ref.fits p]
  simp only [toOption_bind, toOption_placed]
  rfl

theorem Ref.toOption_read (p : Place) (d : Datum) :
    (Ref.read p d).toOption = RecordKind.ref.read d :=
  Option.ext fun _ => (read_eq_some_iff (p := p)).trans (read_eq_some_iff (p := .root)).symm

end Data

/-! ### Jobs -/

/-- Whether what stands under a field is read from a value. -/
def Shape.isStrict : Shape → Bool
  | list r => r.isStrict
  | text strict | texts strict => strict
  | spec | labels | number => true
  | record _ | groups _ | flag | reporter => false

theorem Shape.read_of_strict {sh : Shape} (h : sh.isStrict = true) (x : Datum) :
    sh.read x = (x.toValue .root).toOption.bind fun v => sh.read (.value v) := by
  cases sh with
  | list r =>
    rw [isStrict] at h
    simp only [read, readList, Datum.itemsOf, h, if_true, Datum.toOption_toValue_value]
    cases (x.toValue .root).toOption <;> rfl
  | text strict =>
    rw [isStrict] at h
    simp [read, Datum.textOf, h]
  | texts strict =>
    rw [isStrict] at h
    simp only [read, Datum.itemsOf, h, if_true, Datum.toOption_toValue_value]
    cases (x.toValue .root).toOption <;> rfl
  | labels =>
    simp only [read, Datum.toOption_toValue_value]
    cases (x.toValue .root).toOption <;> rfl
  | spec | number => rfl
  | record | groups | flag | reporter => cases h

theorem Job.isStrict_of_mem {s : Slot Job} (h : s ∈ Job.slots) : s.shape.isStrict = true := by
  revert s
  simp [slots, Shape.isStrict]

section Kept

variable {e : Datum × Datum} {n : String}

/-- An entry of data as one of values. -/
def keptEntry (e : Datum × Datum) : Value × Value :=
  (.string ((name? e).getD ""), ((e.2.toValue .root).toOption).getD .null)

theorem keepDatum_isSome_iff :
    (keepDatum e).isSome ↔ (name? e).isSome ∧ ((e.2.toValue .root).toOption).isSome := by
  rw [keepDatum]
  cases name? e with
  | none => simp
  | some n => cases (e.2.toValue .root).toOption <;> simp

theorem getD_keepDatum (h : (keepDatum e).isSome) : (keepDatum e).getD [] = [keptEntry e] := by
  obtain ⟨hn, hv⟩ := keepDatum_isSome_iff.1 h
  obtain ⟨n, hn⟩ := Option.isSome_iff_exists.1 hn
  obtain ⟨v, hv⟩ := Option.isSome_iff_exists.1 hv
  simp [keepDatum, keptEntry, hn, hv]

theorem name?_keptEntry (h : (keepDatum e).isSome) : name? (keptEntry e) = name? e := by
  obtain ⟨n, hn⟩ := Option.isSome_iff_exists.1 (keepDatum_isSome_iff.1 h).1
  rw [keptEntry, hn]
  rfl

theorem memberOf?_keptEntry (h : (keepDatum e).isSome) :
    memberOf? (keptEntry e) = memberOf? e := by
  obtain ⟨hn, hv⟩ := keepDatum_isSome_iff.1 h
  obtain ⟨n, hn⟩ := Option.isSome_iff_exists.1 hn
  obtain ⟨v, hv⟩ := Option.isSome_iff_exists.1 hv
  rw [memberOf?_eq hn hv, memberOf?_eq ((name?_keptEntry h).trans hn)]
  simp [keptEntry, datum, hv]

theorem Slot.content_keptEntry {ρ : Type} {s : Slot ρ} (hs : s.shape.isStrict = true)
    (h : (keepDatum e).isSome) :
    s.content (some (datum (keptEntry e))) = s.content (some (datum e)) := by
  obtain ⟨v, hv⟩ := Option.isSome_iff_exists.1 (keepDatum_isSome_iff.1 h).2
  rw [content, content, Option.elim_some, Option.elim_some, Shape.read_of_strict hs (datum e)]
  simp [keptEntry, datum, hv]

end Kept

section Rest

variable {J : Type} [JobLike J] {own : List (Slot J)} {es : List (Datum × Datum)}

theorem slot?_append_lift {E : Type} [EntryLike E] {e : E} :
    slot? (own ++ Job.slots.map Slot.lift) e = none ↔
      slot? own e = none ∧ slot? Job.slots e = none := by
  simp only [slot?_eq_none_iff, List.forall_mem_append, List.forall_mem_map, Slot.lift]

variable (hno : ∀ s ∈ own, ∀ s' ∈ Job.slots, s.name ≠ s'.name)
  (hkept : ∀ e ∈ unnamed own es, (keepDatum e).isSome)

/-- The entries that are left for the common fields. -/
def restEntries (own : List (Slot J)) (es : List (Datum × Datum)) : List (Value × Value) :=
  (unnamed own es).map keptEntry

include hno hkept

omit [JobLike J] in
theorem filter_restEntries {s : Slot Job} (hs : s ∈ Job.slots) :
    (restEntries own es).filter (isNamed s.name) =
      (es.filter (isNamed s.name)).map keptEntry := by
  rw [restEntries, List.filter_map, unnamed, List.filter_filter]
  congr 1
  refine List.filter_congr fun e he => ?_
  cases hs' : slot? own e with
  | none =>
    simp [isNamed, name?_keptEntry (hkept e (mem_unnamed.2 ⟨he, hs'⟩))]
  | some s' =>
    -- a field of the kind is not one of the common fields
    obtain ⟨hm, hn⟩ := mem_of_slot? hs'
    simp [isNamed, hn, hno s' hm s hs]

omit [JobLike J] in
theorem content_restEntries {s : Slot Job} (hs : s ∈ Job.slots) :
    s.content (bound? s.name (restEntries own es)) = s.content (bound? s.name es) := by
  rw [bound?, filter_restEntries hno hkept hs, List.getLast?_map, bound?]
  cases he : (es.filter (isNamed s.name)).getLast? with
  | none => rfl
  | some e =>
    obtain ⟨hmem, hn⟩ := List.mem_filter.1 (List.mem_of_getLast? he)
    have hown : slot? own e = none := by
      refine slot?_eq_none_iff.2 fun s' hs' hn' => hno s' hs' s hs ?_
      rw [isNamed, beq_iff_eq, hn', Option.some.injEq] at hn
      exact hn
    exact Slot.content_keptEntry (Job.isStrict_of_mem hs) (hkept e (mem_unnamed.2 ⟨hmem, hown⟩))

omit hno in
theorem readExtra_restEntries :
    readExtra Job.slots (restEntries own es) =
      readExtra (own ++ Job.slots.map Slot.lift) es := by
  have hu : unnamed Job.slots (restEntries own es) =
      (unnamed (own ++ Job.slots.map Slot.lift) es).map keptEntry := by
    rw [restEntries, unnamed, unnamed, unnamed, List.filter_map, List.filter_filter]
    congr 1
    refine List.filter_congr fun e he => ?_
    rw [Bool.eq_iff_iff]
    simp only [Function.comp_apply, Bool.and_eq_true, Option.isNone_iff_eq_none,
      slot?_append_lift]
    rw [and_comm]
    refine and_congr_right fun hs => ?_
    rw [slot?, slot?, name?_keptEntry (hkept e (mem_unnamed.2 ⟨he, hs⟩))]
  have hsub : ∀ e ∈ unnamed (own ++ Job.slots.map Slot.lift) es, (keepDatum e).isSome :=
    fun e he => hkept e (mem_unnamed.2
      ⟨(mem_unnamed.1 he).1, (slot?_append_lift.1 (mem_unnamed.1 he).2).1⟩)
  rw [readExtra, readExtra, hu, List.mapM_map]
  exact congrArg _ (mapM_congr_mem fun e he => memberOf?_keptEntry (hsub e he))

/-- The common fields are read from the entries that are left for them. -/
theorem spells_restEntries_iff {b : Job} :
    Spells Job.slots (some b.extra) (restEntries own es) b ↔
      (∀ s ∈ Job.slots, (es.filter (isNamed s.name)).length ≤ 1) ∧
      (∀ s ∈ Job.slots, s.content (bound? s.name es) = some (s.get b)) ∧
      readExtra (own ++ Job.slots.map Slot.lift) es = some b.extra := by
  rw [← readExtra_restEntries hkept]
  constructor
  · intro h
    refine ⟨fun s hs => ?_, fun s hs => ?_, h.extra _ rfl⟩
    · have ho := h.once s hs
      rwa [filter_restEntries hno hkept hs, List.length_map] at ho
    · rw [← content_restEntries hno hkept hs]
      exact h.fields s hs
  · rintro ⟨ho, hf, hx⟩
    refine ⟨isSome_name? (readExtra_eq_some_iff.1 hx).1, fun s hs => ?_, fun s hs => ?_,
      fun m hm => Option.some.inj hm ▸ hx⟩
    · rw [filter_restEntries hno hkept hs, List.length_map]
      exact ho s hs
    · rw [content_restEntries hno hkept hs]
      exact hf s hs

end Rest

section Kinds

variable {J : Type} [JobLike J] {own : List (Slot J)}
  {fields : Place → List (Field Misread Datum J)} {start : J} {expected : String} {p : Place}
  {d : Datum}

/-- What is left for the common fields is what was kept of the entries. -/
theorem Reads.rest_eq {es : List (Datum × Datum)} {dr : Draft J}
    (h : Reads own JobLike.toJob keepDatum start es dr) : dr.rest = restEntries own es := by
  rw [h.rest, restEntries, List.map_eq_flatMap]
  exact List.flatMap_congr fun e he => getD_keepDatum (h.kept e he)

/-- What gives no field of the kind can be kept, if the entries spell a job. -/
theorem Spells.kept {m : Extra} {es : List (Datum × Datum)} {j : J}
    (h : Spells (own ++ Job.slots.map Slot.lift) (some m) es j) :
    ∀ e ∈ unnamed own es, (keepDatum e).isSome := by
  intro e he
  obtain ⟨hmem, hown⟩ := mem_unnamed.1 he
  cases hs : slot? Job.slots e with
  | none =>
    have hx := (readExtra_eq_some_iff.1 (h.extra _ rfl)).1
    exact keepsExtra_keepDatum.isSome (hx e (mem_unnamed.2 ⟨hmem, slot?_append_lift.2 ⟨hown, hs⟩⟩))
  | some s =>
    -- what stands under a common field is a value
    obtain ⟨hm, hn⟩ := mem_of_slot? hs
    have hlift : s.lift ∈ own ++ Job.slots.map Slot.lift :=
      List.mem_append_right _ (List.mem_map_of_mem hm)
    have hc := h.fields _ hlift
    have hu : bound? s.lift.name es = some (datum e) := bound?_of_once (h.once _ hlift) hmem hn
    rw [hu] at hc
    change s.shape.read (datum e) = some (s.get (JobLike.toJob j)) at hc
    rw [Shape.read_of_strict (Job.isStrict_of_mem hm), Option.bind_eq_some_iff] at hc
    obtain ⟨v, hv, -⟩ := hc
    exact keepDatum_isSome_iff.2 ⟨by rw [hn]; rfl, Option.isSome_iff_exists.2 ⟨v, hv⟩⟩

/-- Entries spell a job if they spell its own fields, and what is left spells the common fields. -/
theorem spells_append_iff (hno : ∀ s ∈ own, ∀ s' ∈ Job.slots, s.name ≠ s'.name)
    {es : List (Datum × Datum)} {j : J} :
    Spells (own ++ Job.slots.map Slot.lift) (some (JobLike.toJob j).extra) es j ↔
      (∀ s ∈ own, (es.filter (isNamed s.name)).length ≤ 1) ∧
      (∀ s ∈ own, s.content (bound? s.name es) = some (s.get j)) ∧
      (∀ e ∈ unnamed own es, (keepDatum e).isSome) ∧
      Spells Job.slots (some (JobLike.toJob j).extra) (restEntries own es) (JobLike.toJob j) := by
  constructor
  · intro h
    obtain ⟨ho, ho'⟩ := List.forall_mem_append.1 h.once
    obtain ⟨hf, hf'⟩ := List.forall_mem_append.1 h.fields
    refine ⟨ho, hf, h.kept, (spells_restEntries_iff hno h.kept).2 ?_⟩
    exact ⟨List.forall_mem_map.1 ho', List.forall_mem_map.1 hf', h.extra _ rfl⟩
  · rintro ⟨ho, hf, hkept, h⟩
    obtain ⟨ho', hf', hx⟩ := (spells_restEntries_iff hno hkept).1 h
    exact ⟨isSome_name? (readExtra_eq_some_iff.1 hx).1,
      List.forall_mem_append.2 ⟨ho, List.forall_mem_map.2 ho'⟩,
      List.forall_mem_append.2 ⟨hf, List.forall_mem_map.2 hf'⟩, fun m hm => Option.some.inj hm ▸ hx⟩

/-- What the reader of a kind of jobs reads, if its own fields are those of the table. -/
theorem readJob_eq_some_iff (hl : IsLayout own JobLike.toJob)
    (hfits : ∀ q, List.Forall₂ (Field.Fits id) (fields q) own)
    (hno : ∀ s ∈ own, ∀ s' ∈ Job.slots, s.name ≠ s'.name)
    (hstart : ∀ s ∈ own, s.absent = some (s.get start))
    (hget : ∀ s ∈ own, ∀ j b, s.get (JobLike.withJob j b) = s.get j) {j : J} :
    (readJob fields start expected p d).toOption = some j ↔
      ∃ es, d.entries? = some es ∧
        Spells (own ++ Job.slots.map Slot.lift) (some (JobLike.toJob j).extra) es j := by
  rw [readJob, toOption_bind, toOption_placed, toOption_asEntries _ _ "a map",
    Option.bind_eq_some_iff]
  refine exists_congr fun es => and_congr_right fun _ => ?_
  simp only [toOption_bind, toOption_placed, toOption_ofData hfits, Option.bind_eq_some_iff,
    spells_append_iff hno]
  constructor
  · rintro ⟨dr, hd, b, hb, hj⟩
    obtain rfl : JobLike.withJob dr.record b = j := Option.some.inj hj
    have h := reads_of_foldlM hl hd
    rw [h.rest_eq, Job.spells_iff] at hb
    rw [JobLike.toJob_withJob]
    refine ⟨h.once, fun s hs => ?_, h.kept, hb⟩
    rw [hget s hs]
    exact h.content_of_absent hs (hstart s hs)
  · rintro ⟨ho, hf, hkept, hb⟩
    obtain ⟨dr, hd, h⟩ := exists_reads start hl ho hf hkept
    refine ⟨dr, hd, JobLike.toJob j, ?_, congrArg some (hl.ext _ _ (fun s hs => ?_) ?_)⟩
    · rw [h.rest_eq, Job.spells_iff]
      exact hb
    · rw [hget s hs]
      exact Option.some.inj ((h.content_of_absent hs (hstart s hs)).symm.trans (hf s hs))
    · exact JobLike.toJob_withJob _ _

theorem Presubmit.fits (q : Place) :
    List.Forall₂ (Field.Fits id) (Presubmit.fields q) Presubmit.ownSlots := by
  refine .cons ⟨rfl, fun x => ?_⟩ <| .cons ⟨rfl, fun x => ?_⟩ <| .cons ⟨rfl, fun x => ?_⟩ <|
    .cons ⟨rfl, fun x => ?_⟩ <| .cons ⟨rfl, fun x => ?_⟩ <| .cons ⟨rfl, fun x => ?_⟩ .nil
  · rw [toOption_map, Datum.toOption_readBool]
    rfl
  · rw [toOption_map, Datum.toOption_readText]
    rfl
  · rw [toOption_map, Datum.toOption_readText]
    rfl
  · rw [toOption_map, Datum.toOption_readBool]
    rfl
  · rw [toOption_map, Datum.toOption_readBool]
    rfl
  · rw [toOption_map, Datum.toOption_readList Datum.toOption_readText]
    rfl

theorem Presubmit.read_eq_some_iff {j : Presubmit} : (Presubmit.read p d).toOption = some j ↔
    ∃ es, d.entries? = some es ∧
      Spells (Presubmit.ownSlots ++ Job.slots.map Slot.lift) (some j.extra) es j :=
  readJob_eq_some_iff Presubmit.isLayout Presubmit.fits (by decide)
    (by simp [ownSlots, Slot.absent, Shape.default]) (by simp [ownSlots, JobLike.withJob])

theorem Presubmit.toOption_read (p : Place) (d : Datum) :
    (Presubmit.read p d).toOption = RecordKind.presubmit.read d :=
  Option.ext fun _ => (read_eq_some_iff (p := p)).trans (read_eq_some_iff (p := .root)).symm

theorem Postsubmit.fits (q : Place) :
    List.Forall₂ (Field.Fits id) (Postsubmit.fields q) Postsubmit.ownSlots := by
  refine .cons ⟨rfl, fun x => ?_⟩ .nil
  rw [toOption_map, Datum.toOption_readList Datum.toOption_readText]
  rfl

theorem Postsubmit.read_eq_some_iff {j : Postsubmit} :
    (Postsubmit.read p d).toOption = some j ↔ ∃ es, d.entries? = some es ∧
      Spells (Postsubmit.ownSlots ++ Job.slots.map Slot.lift) (some j.extra) es j :=
  readJob_eq_some_iff Postsubmit.isLayout Postsubmit.fits (by decide)
    (by simp [ownSlots, Slot.absent, Shape.default]) (by simp [ownSlots, JobLike.withJob])

theorem Postsubmit.toOption_read (p : Place) (d : Datum) :
    (Postsubmit.read p d).toOption = RecordKind.postsubmit.read d :=
  Option.ext fun _ => (read_eq_some_iff (p := p)).trans (read_eq_some_iff (p := .root)).symm

theorem Periodic.fits (q : Place) :
    List.Forall₂ (Field.Fits id) (Periodic.fields q) Periodic.ownSlots := by
  refine .cons ⟨rfl, fun x => ?_⟩ <| .cons ⟨rfl, fun x => ?_⟩ .nil
  · rw [toOption_map, Datum.toOption_readList Ref.toOption_read]
    rfl
  · rw [toOption_map, Datum.toOption_readReporter]
    rfl

theorem Periodic.read_eq_some_iff {j : Periodic} :
    (Periodic.read p d).toOption = some j ↔ ∃ es, d.entries? = some es ∧
      Spells (Periodic.ownSlots ++ Job.slots.map Slot.lift) (some j.extra) es j :=
  readJob_eq_some_iff Periodic.isLayout Periodic.fits (by decide)
    (by simp [ownSlots, Slot.absent, Shape.default]) (by simp [ownSlots, JobLike.withJob])

theorem Periodic.toOption_read (p : Place) (d : Datum) :
    (Periodic.read p d).toOption = RecordKind.periodic.read d :=
  Option.ext fun _ => (read_eq_some_iff (p := p)).trans (read_eq_some_iff (p := .root)).symm

end Kinds

/-! ### Job sets -/

theorem toOption_readGroups {r : RecordKind} {read : Place → Datum → Except Misread r.Record}
    (hr : r.isStrict = false) (h : ∀ p d, (read p d).toOption = r.read d) (p : Place) (d : Datum) :
    (readGroups read p d).toOption = (Shape.groups r).read d := by
  have hstep : ∀ (m : KeyMap String (List r.Record)) (e : Datum × Datum),
      (do
        let key ← placed p (e.1.asKey "a string")
        return m.insert key (← e.2.readList read (.member p key)) : Except Misread _).toOption =
        (Shape.readGroup r e).map fun g => m.insert g.1 g.2 := by
    intro m e
    simp only [toOption_bind, toOption_placed, Datum.toOption_asKey, Datum.toOption_readList h,
      Shape.readGroup, Shape.readList, hr]
    cases e.1.keyOf? with
    | none => rfl
    | some key => cases (e.2.itemsOf false).bind fun ds => ds.mapM r.read <;> rfl
  rw [readGroups, toOption_bind, toOption_placed]
  simp only [toOption_foldlM, hstep, foldlM_insert]
  rfl

theorem JobSet.fits (q : Place) : List.Forall₂ (Field.Fits id) (JobSet.fields q) JobSet.slots := by
  refine .cons ⟨rfl, fun x => ?_⟩ <| .cons ⟨rfl, fun x => ?_⟩ <| .cons ⟨rfl, fun x => ?_⟩ .nil
  · rw [toOption_map, toOption_readGroups (r := .presubmit) rfl Presubmit.toOption_read]
    rfl
  · rw [toOption_map, toOption_readGroups (r := .postsubmit) rfl Postsubmit.toOption_read]
    rfl
  · rw [toOption_map, Datum.toOption_readList Periodic.toOption_read]
    rfl

theorem JobSet.read_eq_some_iff {d : Datum} {s : JobSet} : (JobSet.read d).toOption = some s ↔
    ∃ es, d.entries? = some es ∧ Spells JobSet.slots none es s := by
  have hl := JobSet.isLayout
  rw [JobSet.read, toOption_bind, toOption_placed, toOption_asEntries _ _ "a map",
    Option.bind_eq_some_iff]
  refine exists_congr fun es => and_congr_right fun _ => ?_
  simp only [toOption_bind, toOption_foldlM, toOption_step fits, Option.bind_eq_some_iff]
  have hstart : ∀ s ∈ slots, s.absent = some (s.get ∅) := by
    rintro s hs
    simp only [slots, List.mem_cons, List.not_mem_nil, or_false] at hs
    obtain rfl | rfl | rfl := hs <;> rfl
  constructor
  · rintro ⟨dr, hd, hs⟩
    obtain rfl : dr.record = s := Option.some.inj hs
    have h := reads_of_foldlM hl hd
    refine ⟨fun e he => ?_, h.once, fun s hs => ?_, fun m hm => by cases hm⟩
    · cases hs : slot? slots e with
      | none =>
        have hk := h.kept e (mem_unnamed.2 ⟨he, hs⟩)
        rwa [keepNothing, Option.isSome_map] at hk
      | some s => rw [(mem_of_slot? hs).2, Option.isSome_some]
    · exact h.content_of_absent hs (hstart s hs)
  · intro h
    have hkept : ∀ e ∈ unnamed slots es, (keepNothing e).isSome := fun e he => by
      rw [keepNothing, Option.isSome_map]
      exact h.named e (mem_unnamed.1 he).1
    obtain ⟨dr, hd, h'⟩ := exists_reads ∅ hl h.once h.fields hkept
    refine ⟨dr, hd, congrArg some (hl.ext _ _ (fun s hs => ?_) rfl)⟩
    exact Option.some.inj ((h'.content_of_absent hs (hstart s hs)).symm.trans (h.fields s hs))

/-! ### All records -/

section Twins

variable {E E' α ρ : Type} [EntryLike E] [EntryLike E'] {slots : List (Slot ρ)} {m? : Option Extra}
  {r : ρ} {f : α → E} {g : α → E'} {as : List α}

/-- Whether two entries say the same of a record. -/
structure Twins (slots : List (Slot ρ)) (e : E) (e' : E') : Prop where
  name : name? e = name? e'
  read : ∀ s ∈ slots, s.shape.read (datum e) = s.shape.read (datum e')
  extra : memberOf? e = memberOf? e'

theorem Twins.symm {e : E} {e' : E'} (h : Twins slots e e') : Twins slots e' e :=
  ⟨h.name.symm, fun s hs => (h.read s hs).symm, h.extra.symm⟩

theorem filter_isNamed_map (hn : ∀ a ∈ as, name? (f a) = name? (g a)) (n : String) :
    (as.map f).filter (isNamed n) = (as.filter fun a => isNamed n (g a)).map f := by
  rw [List.filter_map]
  congr 1
  exact List.filter_congr fun a ha => by rw [Function.comp_apply, isNamed, hn a ha, isNamed]

/-- The same entry counts under a name. -/
theorem bound?_map (hn : ∀ a ∈ as, name? (f a) = name? (g a)) (n : String) :
    bound? n (as.map f) = ((as.filter fun a => isNamed n (g a)).getLast?).map (datum <| f ·) := by
  rw [bound?, filter_isNamed_map hn, List.getLast?_map, Option.map_map]
  rfl

theorem unnamed_map :
    unnamed slots (as.map f) = (as.filter fun a => (slot? slots (f a)).isNone).map f :=
  List.filter_map

theorem Twins.spells (h : ∀ a ∈ as, Twins slots (f a) (g a)) (hs : Spells slots m? (as.map f) r) :
    Spells slots m? (as.map g) r where
  named := List.forall_mem_map.2 fun a ha => by
    rw [← (h a ha).name]
    exact hs.named _ (List.mem_map_of_mem ha)
  once s hm := by
    rw [filter_isNamed_map (f := g) fun _ _ => rfl, List.length_map]
    have ho := hs.once s hm
    rwa [filter_isNamed_map fun a ha => (h a ha).name, List.length_map] at ho
  fields s hm := by
    rw [← hs.fields s hm, bound?_map (f := g) fun _ _ => rfl, bound?_map fun a ha => (h a ha).name]
    cases hl : (as.filter fun a => isNamed s.name (g a)).getLast? with
    | none => rfl
    | some a =>
      exact ((h a (List.mem_filter.1 (List.mem_of_getLast? hl)).1).read s hm).symm
  extra m hm := by
    have hu : (as.filter fun a => (slot? slots (g a)).isNone) =
        as.filter fun a => (slot? slots (f a)).isNone :=
      List.filter_congr fun a ha => by rw [slot?, ← (h a ha).name, slot?]
    rw [← hs.extra m hm, readExtra, readExtra, unnamed_map, unnamed_map, hu, List.mapM_map,
      List.mapM_map]
    exact congrArg _ (mapM_congr_mem fun a ha => (h a (List.mem_filter.1 ha).1).extra.symm)

theorem name?_values (e : Value × Value) :
    name? ((Datum.value e.1, Datum.value e.2) : Datum × Datum) = name? e := by
  obtain ⟨k, v⟩ := e
  cases k <;> rfl

/-- Values say as data what they say themselves. -/
theorem Twins.values (slots : List (Slot ρ)) (e : Value × Value) :
    Twins slots ((Datum.value e.1, Datum.value e.2) : Datum × Datum) e :=
  ⟨name?_values e, fun _ _ => rfl, by rw [memberOf?, name?_values]; rfl⟩

/-- The entries of a value are values. -/
theorem Datum.exists_of_entries?_value {v : Value} {ds : List (Datum × Datum)}
    (h : (Datum.value v).entries? = some ds) :
    ∃ es : List (Value × Value), es.map (fun e => (.value e.1, .value e.2)) = ds := by
  rw [entries?, asEntries, untagged] at h
  cases hv : v.untagged with
  | mapping es => exact ⟨es, by simpa [hv, Except.toOption] using h⟩
  | null => exact ⟨[], by simpa [hv, Except.toOption] using h⟩
  | _ => simp [hv, Except.toOption] at h

/-- Values spell as data what they spell themselves. -/
theorem spells_values {es : List (Value × Value)} :
    Spells slots m? (es.map fun e => (Datum.value e.1, Datum.value e.2)) r ↔
      Spells slots m? es r := by
  have h := fun e (_ : e ∈ es) => Twins.values slots e
  constructor
  · intro hs
    rw [← es.map_id]
    exact Twins.spells (g := id) h hs
  · intro hs
    rw [← es.map_id] at hs
    exact Twins.spells (f := id) (fun e he => (h e he).symm) hs

end Twins

namespace RecordKind

/-- A record that is read from data is what the entries spell. -/
theorem read_eq_some_iff {r : RecordKind} (hr : r.isStrict = false) {d : Datum} {x : r.Record} :
    r.read d = some x ↔ ∃ es, d.entries? = some es ∧ Spells r.slots (r.extra? x) es x := by
  cases r with
  | jobSet => exact JobSet.read_eq_some_iff
  | presubmit => exact Presubmit.read_eq_some_iff
  | postsubmit => exact Postsubmit.read_eq_some_iff
  | periodic => exact Periodic.read_eq_some_iff
  | ref => exact Ref.read_eq_some_iff
  | podSpec | container | volume | volumeMount | envVar => cases hr

/-- What the entries of a value spell is what is read from it. -/
theorem read_mapping_iff {r : RecordKind} {es : List (Value × Value)} {x : r.Record} :
    r.read (.value (.mapping es)) = some x ↔ Spells r.slots (r.extra? x) es x := by
  cases hr : r.isStrict with
  | true =>
    cases r with
    | podSpec => exact PodSpec.spells_iff
    | container => exact Container.spells_iff
    | volume => exact Volume.spells_iff
    | volumeMount => exact VolumeMount.spells_iff
    | envVar => exact EnvVar.spells_iff
    | jobSet | presubmit | postsubmit | periodic | ref => cases hr
  | false =>
    have hentries : (Datum.value (.mapping es)).entries? =
        some (es.map fun e => (Datum.value e.1, Datum.value e.2)) := rfl
    rw [read_eq_some_iff hr, hentries, ← spells_values]
    simp only [Option.some.injEq, exists_eq_left']

/-- A value that is a record has entries that spell it. -/
theorem exists_spells {r : RecordKind} {v : Value} {x : r.Record} (h : r.read (.value v) = some x) :
    ∃ es : List (Value × Value), Spells r.slots (r.extra? x) es x := by
  cases hr : r.isStrict with
  | true =>
    cases v with
    | mapping es => exact ⟨es, read_mapping_iff.1 h⟩
    | _ =>
      cases r with
      | podSpec | container | volume | volumeMount | envVar => cases h
      | jobSet | presubmit | postsubmit | periodic | ref => cases hr
  | false =>
    obtain ⟨ds, hds, hs⟩ := (read_eq_some_iff hr).1 h
    obtain ⟨es, rfl⟩ := Datum.exists_of_entries?_value hds
    exact ⟨es, spells_values.1 hs⟩

end RecordKind

/-! ### What stands under a field -/

namespace Shape

theorem read_list_sequence (r : RecordKind) (vs : List Value) :
    (Shape.list r).read (.value (.sequence vs)) = vs.mapM fun v => r.read (.value v) := by
  have hitems : (Datum.value (.sequence vs)).itemsOf r.isStrict = some (vs.map .value) := by
    cases r <;> rfl
  rw [read, readList, hitems, Option.bind_some, List.mapM_map]
  rfl

theorem of_readGroup {r : RecordKind} {e : Datum × Datum} {p : String × List r.Record}
    (h : readGroup r e = some p) : name? e = some p.1 ∧ readList r e.2 = some p.2 := by
  obtain ⟨key, hkey, h⟩ := Option.bind_eq_some_iff.1 h
  obtain ⟨l, hl, h⟩ := Option.bind_eq_some_iff.1 h
  obtain rfl := Option.some.inj h
  exact ⟨hkey, hl⟩

/-- The key and the jobs of a grouping of values. -/
def readGroupValue (r : RecordKind) (e : Value × Value) : Option (String × List r.Record) :=
  readGroup r (.value e.1, .value e.2)

theorem fst_of_readGroupValue {r : RecordKind} {e : Value × Value}
    {p : String × List r.Record} (h : readGroupValue r e = some p) : e.1 = .string p.1 :=
  name?_value_iff.1 ((name?_values e).symm.trans (of_readGroup h).1)

theorem fst_of_readLabel {e : Value × Value} {p : String × String} (h : readLabel e = some p) :
    e.1 = .string p.1 := by
  obtain ⟨n, hn, h⟩ := Option.bind_eq_some_iff.1 h
  obtain ⟨v, -, h⟩ := Option.bind_eq_some_iff.1 h
  obtain rfl := Option.some.inj h
  exact name?_value_iff.1 hn

theorem read_groups_mapping (r : RecordKind) (es : List (Value × Value)) :
    (Shape.groups r).read (.value (.mapping es)) =
      (es.mapM (readGroupValue r)).map .ofList := by
  have hentries : ((Datum.value (.mapping es)).asEntries "a map").toOption =
      some (es.map fun e => (.value e.1, .value e.2)) := rfl
  rw [read, hentries, Option.bind_some, List.mapM_map]
  rfl

theorem read_spec_of_ne_null {v : Value} (h : v ≠ .null) :
    Shape.spec.read (.value v) = (RecordKind.podSpec.read (.value v)).map some := by
  have hv : PodSpec.ofValue? v = (PodSpec.ofValue false v).map some := by
    cases v with
    | null => exact absurd rfl h
    | _ => rfl
  change (PodSpec.ofValue? v).toOption = (PodSpec.ofValue false v).toOption.map some
  rw [hv, toOption_map]

end Shape

end JobConfig
