import JobConfig.Proofs.Schema.Records

/-!
# Respelling a document

Values say the same if they differ in the order of their entries and in fields that are written out
with what is meant anyway. The same is read from all of them.
-/

namespace JobConfig

open EntryLike (name? datum)

namespace Shape

/-- Whether what stands under a field is a mapping whose entries have no order. -/
def isMap : Shape → Bool
  | record _ | groups _ | labels => true
  | list _ | spec | text _ | texts _ | flag | number | reporter => false

end Shape

/-- One step from a value of a shape to one that says the same: entries change places, an optional
field is written out with what is meant where it is not given, or there is such a step below. -/
inductive Respells : Shape → Value → Value → Prop where
  | permute {sh : Shape} {es es' : List (Value × Value)} : sh.isMap = true → es.Perm es' →
      (es.map Prod.fst).Nodup → Respells sh (.mapping es) (.mapping es')
  | default {r : RecordKind} {s : Slot r.Record} {es : List (Value × Value)} : s ∈ r.slots →
      s.required = false → .string s.name ∉ es.map Prod.fst →
      Respells (.record r) (.mapping es) (.mapping (entry s.name s.shape.blank :: es))
  | member {r : RecordKind} {s : Slot r.Record} {es es' : List (Value × Value)} {v w : Value} :
      s ∈ r.slots → Respells s.shape v w →
      Respells (.record r) (.mapping (es ++ entry s.name v :: es'))
        (.mapping (es ++ entry s.name w :: es'))
  | spec {v w : Value} : Respells (.record .podSpec) v w → Respells .spec v w
  | item {r : RecordKind} {vs ws : List Value} {v w : Value} : Respells (.record r) v w →
      Respells (.list r) (.sequence (vs ++ v :: ws)) (.sequence (vs ++ w :: ws))
  | group {r : RecordKind} {k : Value} {es es' : List (Value × Value)} {v w : Value} :
      Respells (.list r) v w →
      Respells (.groups r) (.mapping (es ++ (k, v) :: es')) (.mapping (es ++ (k, w) :: es'))

/-! ### Entries that change places -/

section Permute

variable {es es' : List (Value × Value)}

/-- A map does not depend on the order of its entries, if no key repeats. -/
theorem map_ofList_perm {α : Type} {g : Value × Value → Option (String × α)}
    (hkey : ∀ e p, g e = some p → e.1 = .string p.1) (hp : es.Perm es')
    (hnd : (es.map Prod.fst).Nodup) :
    (es.mapM g).map KeyMap.ofList = (es'.mapM g).map KeyMap.ofList := by
  have hkeys : ((es.filterMap g).map fun p => Value.string p.1).Sublist (es.map Prod.fst) := by
    clear hp hnd
    induction es with
    | nil => exact .slnil
    | cons e es ih =>
      rw [List.filterMap_cons, List.map_cons]
      cases he : g e with
      | none => exact .cons _ ih
      | some p =>
        rw [List.map_cons, ← hkey e p he]
        exact .cons_cons _ ih
  have hnodup : ((es.filterMap g).map Prod.fst).Nodup := by
    refine List.Nodup.of_map Value.string ?_
    rw [List.map_map]
    exact hnd.sublist hkeys
  have hmap : KeyMap.ofList (es.filterMap g) = KeyMap.ofList (es'.filterMap g) := by
    refine KeyMap.ext_get? fun k => ?_
    rw [KeyMap.get?_ofList, KeyMap.get?_ofList]
    congr 2
    refine eq_of_perm_of_length_le_one ((hp.filterMap g).filter _) ?_
    rw [← List.countP_eq_length_filter]
    have hcount := List.nodup_iff_count_le_one.1 hnodup k
    rw [List.count, List.countP_map] at hcount
    exact Nat.le_trans (Nat.le_of_eq (List.countP_congr fun p _ => by simp)) hcount
  refine Option.ext fun m => ?_
  simp only [Option.map_eq_some_iff, mapM_eq_some_iff]
  constructor
  · rintro ⟨l, ⟨h, rfl⟩, rfl⟩
    exact ⟨_, ⟨fun e he => h e (hp.mem_iff.2 he), rfl⟩, hmap.symm⟩
  · rintro ⟨l, ⟨h, rfl⟩, rfl⟩
    exact ⟨_, ⟨fun e he => h e (hp.mem_iff.1 he), rfl⟩, hmap⟩

theorem Spells.perm {ρ : Type} {slots : List (Slot ρ)} {m? : Option Extra} {r : ρ}
    (h : Spells slots m? es r) (hp : es.Perm es')
    (hnd : ((unnamed slots es).map Prod.fst).Nodup) : Spells slots m? es' r where
  named e he := h.named e (hp.mem_iff.2 he)
  once s hs := (hp.filter _).length_eq ▸ h.once s hs
  fields s hs := by
    rw [bound?, ← eq_of_perm_of_length_le_one (hp.filter (isNamed s.name)) (h.once s hs)]
    exact h.fields s hs
  extra m hm := by
    rw [← h.extra m hm, readExtra, readExtra]
    exact (map_ofList_perm (fun _ _ h => name?_value_iff.1 (memberOf?_eq_some h).1) (hp.filter _)
      hnd).symm

end Permute

/-! ### Fields that are written out -/

namespace Shape

theorem read_blank {sh : Shape} (h : ∀ r, sh ≠ .record r) :
    sh.read (.value sh.blank) = sh.default := by
  cases sh with
  | record r => exact absurd rfl (h r)
  | list r => cases r <;> rfl
  | texts strict => cases strict <;> rfl
  | text strict => cases strict <;> rfl
  | groups | spec | labels | flag | number | reporter => rfl

end Shape

theorem RecordKind.ne_record {r : RecordKind} {s : Slot r.Record} (h : s ∈ r.slots)
    (r' : RecordKind) : s.shape ≠ .record r' := by
  revert s
  cases r <;> simp [slots, JobSet.slots, Presubmit.ownSlots, Postsubmit.ownSlots,
    Periodic.ownSlots, Ref.slots, PodSpec.slots, Container.slots, Volume.slots, VolumeMount.slots,
    EnvVar.slots, nameSlots, Job.slots, Slot.lift]

section Fields

variable {ρ : Type} {slots : List (Slot ρ)} {m? : Option Extra} {x : ρ}
  {es es' : List (Value × Value)}

theorem isNamed_entry (n n' : String) (v : Value) :
    isNamed n' (entry n v) = decide (n = n') := by
  rw [Bool.eq_iff_iff, isNamed, beq_iff_eq, name?_value_iff, decide_eq_true_eq, entry,
    Value.string.injEq]

theorem isNone_slot?_entry {s : Slot ρ} (hs : s ∈ slots) (v : Value) :
    (slot? slots (entry s.name v)).isNone = false := by
  rw [← Bool.not_eq_true, Option.isNone_iff_eq_none, slot?_eq_none_iff]
  exact fun h => h s hs rfl

theorem filter_isNamed_eq_nil_of_notMem {n : String} (h : .string n ∉ es.map Prod.fst) :
    es.filter (isNamed n) = [] := by
  refine List.filter_eq_nil_iff.2 fun e he hn => h ?_
  rw [isNamed, beq_iff_eq, name?_value_iff] at hn
  exact List.mem_map.2 ⟨e, he, hn⟩

/-- Entries spell the same as others that differ only in those of one field, if the field holds the
same. -/
theorem Spells.of_slot {s : Slot ρ} (h : Spells slots m? es x)
    (hother : ∀ s' ∈ slots, s' ≠ s →
      es'.filter (isNamed s'.name) = es.filter (isNamed s'.name))
    (hnamed : ∀ e ∈ es', (name? e).isSome) (honce : (es'.filter (isNamed s.name)).length ≤ 1)
    (hcontent : s.content (bound? s.name es') = s.content (bound? s.name es))
    (hu : unnamed slots es' = unnamed slots es) : Spells slots m? es' x := by
  refine ⟨hnamed, fun s' hs' => ?_, fun s' hs' => ?_, fun m hm => ?_⟩
  · by_cases hne : s' = s
    · exact hne ▸ honce
    · rw [hother s' hs' hne]
      exact h.once s' hs'
  · rw [← h.fields s' hs']
    by_cases hne : s' = s
    · exact hne ▸ hcontent
    · rw [bound?, hother s' hs' hne, bound?]
  · rw [← h.extra m hm, readExtra, hu, readExtra]

/-- A field that is written out with what is meant where it is not given says nothing new. -/
theorem spells_default_iff {s : Slot ρ} (hnd : (slots.map Slot.name).Nodup) (hs : s ∈ slots)
    (hblank : s.shape.read (.value s.shape.blank) = s.absent)
    (hno : .string s.name ∉ es.map Prod.fst) :
    Spells slots m? (entry s.name s.shape.blank :: es) x ↔ Spells slots m? es x := by
  have hnil := filter_isNamed_eq_nil_of_notMem hno
  have hsame : (entry s.name s.shape.blank :: es).filter (isNamed s.name) =
      [entry s.name s.shape.blank] := by
    rw [List.filter_cons, isNamed_entry, decide_eq_true rfl, if_pos rfl, hnil]
  have hother : ∀ s' ∈ slots, s' ≠ s →
      (entry s.name s.shape.blank :: es).filter (isNamed s'.name) =
        es.filter (isNamed s'.name) := by
    intro s' hs' hne
    rw [List.filter_cons, isNamed_entry, if_neg]
    rw [decide_eq_true_eq]
    exact fun hn => hne (List.inj_on_of_nodup_map hnd hs hs' hn).symm
  have hcontent : s.content (bound? s.name (entry s.name s.shape.blank :: es)) =
      s.content (bound? s.name es) := by
    rw [bound?, hsame, bound?, hnil]
    exact hblank
  have hu : unnamed slots (entry s.name s.shape.blank :: es) = unnamed slots es := by
    rw [unnamed, List.filter_cons, isNone_slot?_entry hs, if_neg Bool.false_ne_true, unnamed]
  constructor
  · intro h
    exact h.of_slot (fun s' hs' hne => (hother s' hs' hne).symm)
      (fun e he => h.named e (List.mem_cons_of_mem _ he)) (by simp [hnil]) hcontent.symm hu.symm
  · intro h
    exact h.of_slot hother (List.forall_mem_cons.2 ⟨rfl, h.named⟩) (by simp [hsame]) hcontent hu

/-- What stands under a field matters only by what is read from it. -/
theorem Spells.member {s : Slot ρ} {v w : Value} (hnd : (slots.map Slot.name).Nodup)
    (hs : s ∈ slots) (hread : s.shape.read (.value v) = s.shape.read (.value w))
    (h : Spells slots m? (es ++ entry s.name v :: es') x) :
    Spells slots m? (es ++ entry s.name w :: es') x := by
  have honce : ((es ++ entry s.name w :: es').filter (isNamed s.name)).length ≤ 1 := by
    have hv := h.once s hs
    simp only [List.filter_append, List.filter_cons, isNamed_entry, decide_true, if_true,
      List.length_append, List.length_cons] at hv ⊢
    exact hv
  refine h.of_slot (s := s) (fun s' hs' hne => ?_) ?_ honce ?_ ?_
  · have hn : ¬s.name = s'.name := fun hn =>
      hne (List.inj_on_of_nodup_map hnd hs hs' hn).symm
    simp [List.filter_append, isNamed_entry, hn]
  · have hnamed := h.named
    rw [List.forall_mem_append, List.forall_mem_cons] at hnamed ⊢
    exact hnamed
  · rw [bound?_of_once honce (e := entry s.name w) (by simp) rfl,
      bound?_of_once (h.once s hs) (e := entry s.name v) (by simp) rfl]
    exact hread.symm
  · simp [unnamed, List.filter_append, isNone_slot?_entry hs]

end Fields

/-! ### Steps -/

/-- A record is a mapping on both sides of a step. -/
theorem Respells.ne_null {r : RecordKind} {v w : Value} (h : Respells (.record r) v w) :
    v ≠ .null ∧ w ≠ .null := by
  cases h <;> simp

/-- The same is read from both sides of a step. -/
theorem Respells.read_eq {sh : Shape} {v w : Value} (h : Respells sh v w) :
    sh.read (.value v) = sh.read (.value w) := by
  induction h with
  | @permute sh es es' hsh hp hnd =>
    cases sh with
    | record r =>
      refine Option.ext fun x => ?_
      rw [Shape.read, Shape.read, RecordKind.read_mapping_iff, RecordKind.read_mapping_iff]
      have hsub : ∀ {as : List (Value × Value)}, (as.map Prod.fst).Nodup →
          ((unnamed r.slots as).map Prod.fst).Nodup := fun h =>
        h.sublist (List.filter_sublist.map Prod.fst)
      exact ⟨fun h => h.perm hp (hsub hnd),
        fun h => h.perm hp.symm (hsub ((hp.map Prod.fst).nodup_iff.1 hnd))⟩
    | groups r =>
      rw [Shape.read_groups_mapping, Shape.read_groups_mapping]
      exact map_ofList_perm (fun _ _ => Shape.fst_of_readGroupValue) hp hnd
    | labels => exact map_ofList_perm (fun _ _ => Shape.fst_of_readLabel) hp hnd
    | list | spec | text | texts | flag | number | reporter => cases hsh
  | @default r s es hs hq hno =>
    refine Option.ext fun x => ?_
    rw [Shape.read, Shape.read, RecordKind.read_mapping_iff, RecordKind.read_mapping_iff,
      spells_default_iff r.nodup_names hs ?_ hno]
    rw [Shape.read_blank (r.ne_record hs), Slot.absent, hq]
    rfl
  | @member r s es es' v w hs _ ih =>
    refine Option.ext fun x => ?_
    rw [Shape.read, Shape.read, RecordKind.read_mapping_iff, RecordKind.read_mapping_iff]
    exact ⟨fun h => h.member r.nodup_names hs ih, fun h => h.member r.nodup_names hs ih.symm⟩
  | spec h ih =>
    obtain ⟨hv, hw⟩ := h.ne_null
    rw [Shape.read_spec_of_ne_null hv, Shape.read_spec_of_ne_null hw]
    exact congrArg _ ih
  | item _ ih =>
    rw [Shape.read_list_sequence, Shape.read_list_sequence]
    exact mapM_append_cons_congr ih
  | group _ ih =>
    rw [Shape.read_groups_mapping, Shape.read_groups_mapping]
    refine congrArg _ (mapM_append_cons_congr ?_)
    simp only [Shape.read] at ih
    simp only [Shape.readGroupValue, Shape.readGroup, ih]

end JobConfig
