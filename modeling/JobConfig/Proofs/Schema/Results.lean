import JobConfig.Proofs.Lists
import JobConfig.Proofs.Schema.Table

/-!
# What is read

The results of the readers, without their faults. A place matters only for a fault, so that the same
is read wherever a datum stands.
-/

namespace JobConfig

theorem toOption_bind {ε α β : Type} (x : Except ε α) (f : α → Except ε β) :
    (x >>= f).toOption = x.toOption.bind fun a => (f a).toOption := by
  cases x <;> rfl

theorem toOption_map {ε α β : Type} (f : α → β) (x : Except ε α) :
    (x.map f).toOption = x.toOption.map f := by
  cases x <;> rfl

@[simp] theorem toOption_placed {α : Type} (p : Place) (x : Except Fault α) :
    (placed p x).toOption = x.toOption := by
  cases x <;> rfl

theorem toOption_mapM {ε α β : Type} (f : α → Except ε β) (as : List α) :
    (as.mapM f).toOption = as.mapM fun a => (f a).toOption := by
  induction as with
  | nil => rfl
  | cons a as ih =>
    simp only [List.mapM_cons, toOption_bind, ih]
    rfl

theorem toOption_foldlM {ε α β : Type} (f : α → β → Except ε α) (bs : List β) (a : α) :
    (bs.foldlM f a).toOption = bs.foldlM (fun a b => (f a b).toOption) a := by
  induction bs generalizing a with
  | nil => rfl
  | cons b bs ih =>
    simp only [List.foldlM_cons, toOption_bind, ih]
    rfl

/-- Entries that are put into a map one after the other. -/
theorem foldlM_insert {β α : Type} (g : β → Option (String × α)) (bs : List β)
    (m : KeyMap String α) :
    bs.foldlM (fun m b => (g b).map fun e => m.insert e.1 e.2) m =
      (bs.mapM g).map fun es => es.foldl (fun m e => m.insert e.1 e.2) m := by
  induction bs generalizing m with
  | nil => rfl
  | cons b bs ih =>
    rw [List.foldlM_cons, List.mapM_cons]
    cases g b with
    | none => rfl
    | some e =>
      simp only [Option.map_some, Option.bind_eq_bind, Option.bind_some, ih]
      cases bs.mapM g <;> rfl

namespace Datum

mutual

theorem toOption_toValue (p q : Place) :
    (d : Datum) → (d.toValue p).toOption = (d.toValue q).toOption
  | .value v => rfl
  | .scalar w => by simp [toValue]
  | .sequence tag ds => by
    rw [toValue, toValue]
    split
    · rfl
    · rw [toOption_map, toOption_map, toOption_toValues p q 0 0 ds]
  | .mapping tag es => by
    rw [toValue, toValue]
    split
    · rfl
    · rw [toOption_map, toOption_map, toOption_toValueEntries p q es]
  | .broken => rfl

theorem toOption_toValues (p q : Place) (i j : Nat) :
    (ds : List Datum) → (toValues p i ds).toOption = (toValues q j ds).toOption
  | [] => rfl
  | d :: ds => by
    simp only [toValues, toOption_bind]
    rw [toOption_toValue (.item p i) (.item q j) d,
      toOption_toValues p q (i + 1) (j + 1) ds]

theorem toOption_toValueEntries (p q : Place) :
    (es : List (Datum × Datum)) →
      (toValueEntries p es).toOption = (toValueEntries q es).toOption
  | [] => rfl
  | (k, x) :: es => by
    simp only [toValueEntries, toOption_bind]
    rw [toOption_toValue p q k, toOption_toValue (placeUnder p k) (placeUnder q k) x,
      toOption_toValueEntries p q es]

end

mutual

theorem toOption_toTaggedValue (p q : Place) :
    (d : Datum) → (d.toTaggedValue p).toOption = (d.toTaggedValue q).toOption
  | .value v => rfl
  | .scalar w => by simp [toTaggedValue]
  | .sequence tag ds => by
    rw [toTaggedValue, toTaggedValue, toOption_map, toOption_map,
      toOption_toTaggedValues p q 0 0 ds]
  | .mapping tag es => by
    rw [toTaggedValue, toTaggedValue, toOption_map, toOption_map,
      toOption_toTaggedEntries p q [] es]
  | .broken => rfl

theorem toOption_toTaggedValues (p q : Place) (i j : Nat) :
    (ds : List Datum) → (toTaggedValues p i ds).toOption = (toTaggedValues q j ds).toOption
  | [] => rfl
  | d :: ds => by
    simp only [toTaggedValues, toOption_bind]
    rw [toOption_toTaggedValue (.item p i) (.item q j) d,
      toOption_toTaggedValues p q (i + 1) (j + 1) ds]

theorem toOption_toTaggedEntries (p q : Place) (seen : List Value) :
    (es : List (Datum × Datum)) →
      (toTaggedEntries p seen es).toOption = (toTaggedEntries q seen es).toOption
  | [] => rfl
  | (k, x) :: es => by
    simp only [toTaggedEntries, toOption_bind]
    rw [toOption_toTaggedValue p q k]
    congr 1
    funext key
    split
    · rfl
    · simp only [toOption_bind]
      rw [toOption_toTaggedValue (placeUnder p k) (placeUnder q k) x]
      congr 1
      funext v
      rw [toOption_toTaggedEntries p q (key :: seen) es]

end

/-! ### Lists and texts -/

@[simp] theorem toOption_toValue_value (p : Place) (v : Value) :
    ((Datum.value v).toValue p).toOption = some v := rfl

theorem toOption_asKey (d : Datum) (expected : String) :
    (d.asKey expected).toOption = d.keyOf? := by
  cases d with
  | value v => cases v <;> rfl
  | _ => rfl

theorem toOption_asText (d : Datum) (expected : String) :
    (d.asText expected).toOption = d.textOf false :=
  (toOption_asKey _ _).trans (toOption_asKey _ _).symm

@[simp] theorem toOption_readText (p : Place) (d : Datum) :
    (d.readText p).toOption = d.textOf false := by
  rw [readText, toOption_placed, toOption_asText]

@[simp] theorem toOption_readBool (p : Place) (d : Datum) :
    (d.readBool p).toOption = d.asBool.toOption := by
  rw [readBool, toOption_placed]

theorem toOption_readItems {α : Type} {read : Place → Datum → Except Misread α}
    {f : Datum → Option α} (h : ∀ p d, (read p d).toOption = f d) (p : Place) (i : Nat)
    (ds : List Datum) : (readItems read p i ds).toOption = ds.mapM f := by
  induction ds generalizing i with
  | nil => rfl
  | cons d ds ih =>
    simp only [readItems, toOption_bind, List.mapM_cons, h, ih]
    rfl

theorem toOption_readList {α : Type} {read : Place → Datum → Except Misread α}
    {f : Datum → Option α} (h : ∀ p d, (read p d).toOption = f d) (p : Place) (d : Datum) :
    (d.readList read p).toOption = (d.itemsOf false).bind fun ds => ds.mapM f := by
  rw [readList, toOption_bind, toOption_placed]
  simp only [toOption_readItems h]
  rfl

theorem toOption_asListOf {α : Type} {read : Value → Except Fault α} {f : Datum → Option α}
    (h : ∀ v, (read v).toOption = f (.value v)) (v : Value) :
    (v.asListOf false read).toOption = ((Datum.value v).itemsOf true).bind fun ds => ds.mapM f := by
  cases v with
  | sequence vs =>
    simp [Value.asListOf, itemsOf, toOption_mapM, h, List.mapM_map, Function.comp_def]
  | _ => rfl

theorem toOption_readReporter (q : Place) (d : Datum) :
    (Periodic.readReporter q d).toOption = (Periodic.readReporter .root d).toOption := by
  simp only [Periodic.readReporter, toOption_bind, toOption_placed]
  congr 1
  funext absent
  cases absent with
  | true => rfl
  | false =>
    simp only [Bool.false_eq_true, if_false, toOption_bind]
    rw [toOption_toTaggedValue q .root]

end Datum

end JobConfig
