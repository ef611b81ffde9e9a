import JobConfig.Load
import JobConfig.Proofs.Schema.Values
import JobConfig.Proofs.Schema.Writing

/-!
# Members that the schema does not name

Every record below the root of a document keeps the members that the schema does not name, and they
are written again. The root itself drops them.
-/

namespace JobConfig

open EntryLike (name? datum)

/-- One step into a document. -/
inductive Step where
  | member (name : String)
  | item (index : Nat)
deriving DecidableEq

namespace Datum

/-- What stands one step below. Of several entries of one name the last one counts. -/
def step? (d : Datum) : Step → Option Datum
  | .member n => d.entries?.bind (bound? n)
  | .item i => d.asItems.toOption.bind (·[i]?)

/-- What stands at the end of a path. -/
def at? (d : Datum) (path : List Step) : Option Datum :=
  path.foldlM step? d

theorem at?_cons (d : Datum) (st : Step) (path : List Step) :
    d.at? (st :: path) = (d.step? st).bind (·.at? path) :=
  List.foldlM_cons

theorem at?_eq_none {d : Datum} (h : ∀ st, d.step? st = none) {path : List Step}
    (hp : path ≠ []) : d.at? path = none := by
  cases path with
  | nil => exact absurd rfl hp
  | cons st path => rw [at?_cons, h, Option.bind_none]

theorem at?_singleton (d : Datum) (st : Step) : d.at? [st] = d.step? st := by
  rw [at?_cons]
  exact Option.bind_fun_some _

end Datum

/-- The records below what stands under a field, and the paths to them. -/
inductive RecordAt : Shape → List Step → RecordKind → Prop where
  | here {r : RecordKind} : RecordAt (.record r) [] r
  | field {r r' : RecordKind} {s : Slot r.Record} {path : List Step} : s ∈ r.slots →
      RecordAt s.shape path r' → RecordAt (.record r) (.member s.name :: path) r'
  | item {r r' : RecordKind} {path : List Step} (i : Nat) : RecordAt (.record r) path r' →
      RecordAt (.list r) (.item i :: path) r'
  | group {r r' : RecordKind} {path : List Step} (key : String) : RecordAt (.list r) path r' →
      RecordAt (.groups r) (.member key :: path) r'
  | spec {r' : RecordKind} {path : List Step} : RecordAt (.record .podSpec) path r' →
      RecordAt .spec path r'

/-! ### Names and maps -/

section Maps

variable {E α : Type} [EntryLike E] {n : String}

/-- What counts under a name is what a map of the entries binds it to. -/
theorem get?_ofList_of_bound {g : E → Option (String × α)}
    (hg : ∀ e p, g e = some p → name? e = some p.1) {es : List E} {l : List (String × α)}
    (h : es.mapM g = some l) {x : Datum} (hx : bound? n es = some x) :
    ∃ e ∈ es, ∃ a, datum e = x ∧ g e = some (n, a) ∧ (KeyMap.ofList l).get? n = some a := by
  obtain ⟨ps, rfl, rfl, hps⟩ := exists_pairs_of_mapM h
  have hname : ∀ p ∈ ps, isNamed n p.1 = decide (p.2.1 = n) := fun p hp => by
    rw [isNamed, hg _ _ (hps p hp), Bool.eq_iff_iff, beq_iff_eq, decide_eq_true_eq,
      Option.some.injEq]
  rw [bound?, List.filter_map, List.getLast?_map, Option.map_map, Option.map_eq_some_iff] at hx
  obtain ⟨p, hlast, rfl⟩ := hx
  obtain ⟨hp, hn⟩ := List.mem_filter.1 (List.mem_of_getLast? hlast)
  rw [Function.comp_apply, hname p hp, decide_eq_true_eq] at hn
  refine ⟨p.1, List.mem_map_of_mem hp, p.2.2, rfl, by rw [hps p hp, ← hn], ?_⟩
  rw [KeyMap.get?_ofList, List.filter_map, List.getLast?_map, Option.map_map]
  have hfilter : ps.filter ((fun e : String × α => decide (e.1 = n)) ∘ Prod.snd) =
      ps.filter (isNamed n ∘ Prod.fst) :=
    List.filter_congr fun p hp => (hname p hp).symm
  rw [hfilter, hlast]
  rfl

/-- What counts under a name of a map that is written out is what the map binds it to. -/
theorem bound?_entries (m : KeyMap String α) (f : α → Value) :
    bound? n (m.entries.map fun e => entry e.1 (f e.2)) = (m.get? n).map fun a => .value (f a) := by
  rw [← KeyMap.ofList_entries m, KeyMap.get?_ofList, KeyMap.ofList_entries, bound?, List.filter_map,
    List.getLast?_map, Option.map_map, Option.map_map]
  have hfilter : m.entries.filter (isNamed n ∘ fun e => entry e.1 (f e.2)) =
      m.entries.filter fun e => e.1 = n :=
    List.filter_congr fun e _ => by
      rw [Function.comp_apply, isNamed, name?_entry, Bool.eq_iff_iff, beq_iff_eq,
        decide_eq_true_eq, Option.some.injEq]
  rw [hfilter]
  rfl

end Maps

/-! ### What is read at a path -/

section Reading

variable {r : RecordKind} {d x : Datum} {n : String}

/-- A member that the schema does not name is one of the members that a record keeps. -/
theorem Spells.get?_extra {E ρ : Type} [EntryLike E] {slots : List (Slot ρ)} {m : Extra} {a : ρ}
    {es : List E} (h : Spells slots (some m) es a) (hn : ∀ s ∈ slots, s.name ≠ n)
    (hx : bound? n es = some x) : ∃ v, x.value? = some v ∧ m.get? n = some v := by
  have hunder : bound? n (unnamed slots es) = bound? n es := by
    rw [bound?, unnamed, List.filter_filter, bound?]
    congr 2
    refine List.filter_congr fun e _ => Bool.and_eq_left_iff_imp.2 fun he => ?_
    rw [isNamed, beq_iff_eq] at he
    rw [Option.isNone_iff_eq_none, slot?_eq_none_iff]
    exact fun s hs hs' => hn s hs (Option.some.inj (hs'.symm.trans he))
  obtain ⟨l, hl, rfl⟩ := Option.map_eq_some_iff.1 (h.extra m rfl)
  obtain ⟨e, -, v, rfl, he, hv⟩ := get?_ofList_of_bound
    (fun e p hp => (memberOf?_eq_some hp).1) hl (hunder.trans hx)
  exact ⟨v, (memberOf?_eq_some he).2.1, hv⟩

/-- A list of records is read item by item. -/
theorem Shape.items_of_readList {l : List r.Record} (h : readList r d = some l) :
    ∃ ps : List (Datum × r.Record), d.asItems.toOption = some (ps.map Prod.fst) ∧
      l = ps.map Prod.snd ∧ ∀ p ∈ ps, r.read p.1 = some p.2 := by
  obtain ⟨ds, hds, h⟩ := Option.bind_eq_some_iff.1 h
  cases hr : r.isStrict with
  | false =>
    obtain ⟨ps, rfl, rfl, hps⟩ := exists_pairs_of_mapM h
    exact ⟨ps, by rw [← hds, hr]; rfl, rfl, hps⟩
  | true =>
    rw [hr, Datum.itemsOf, if_pos rfl] at hds
    split at hds
    · next vs hvs =>
      obtain rfl := Option.some.inj hds
      obtain ⟨ps, hitems, rfl, hvalue⟩ := Datum.items_of_value? hvs
      rw [List.map_map, List.mapM_map] at h
      obtain ⟨qs, rfl, rfl, hqs⟩ := exists_pairs_of_mapM h
      refine ⟨qs.map fun q => (q.1.1, q.2), ?_, ?_, List.forall_mem_map.2 fun q hq => ?_⟩
      · rw [hitems, List.map_map, List.map_map]
        rfl
      · rw [List.map_map]
        rfl
      · rw [RecordKind.read_of_isStrict hr, hvalue q.1 (List.mem_map_of_mem hq)]
        exact hqs q hq
    · cases hds

/-- Nothing stands below a null. -/
theorem Datum.step?_of_null (h : d.value? = some .null) (st : Step) : d.step? st = none := by
  cases d with
  | value v =>
    obtain rfl : v = .null := Option.some.inj h
    cases st <;> rfl
  | scalar w =>
    cases st <;>
      simp only [step?, entries?, asEntries, asItems, untagged] <;>
      split <;>
      rfl
  | sequence tag ds =>
    obtain ⟨_, -, heq⟩ := value?_sequence h
    cases heq
  | mapping tag es =>
    obtain ⟨_, -, heq⟩ := value?_mapping h
    cases heq
  | broken => cases h

end Reading

/-! ### What is written at a path -/

section Writing

variable {r : RecordKind} {n : String}

theorem Datum.step?_mapping (es : List (Value × Value)) (n : String) :
    (Datum.value (.mapping es)).step? (.member n) = bound? n es := by
  change bound? n (es.map fun e => (Datum.value e.1, Datum.value e.2)) = _
  rw [bound?_map (g := id) fun e _ => name?_values e, bound?]
  rfl

theorem Datum.step?_sequence (vs : List Value) (i : Nat) :
    (Datum.value (.sequence vs)).step? (.item i) = vs[i]?.map .value := by
  rw [← List.getElem?_map]
  rfl

namespace RecordKind

variable {x : r.Record}

/-- What stands under a name depends only on the entries of that name. -/
theorem step?_toValue {es : List (Value × Value)}
    (hes : (r.toEntries x).filter (isNamed n) = es) (honce : es.length ≤ 1) :
    (Datum.value (r.toValue x)).step? (.member n) = es.getLast?.map datum := by
  obtain ⟨es', hx, hp⟩ := r.exists_toValue x
  have hfilter := eq_of_perm_of_length_le_one (hp.symm.filter (isNamed n)) (hes ▸ honce)
  rw [hx, Datum.step?_mapping, bound?, ← hfilter, hes]

theorem step?_toValue_slot (hm : IsExtra r.slots (r.extra x)) {s : Slot r.Record}
    (hs : s ∈ r.slots) :
    (Datum.value (r.toValue x)).step? (.member s.name) =
      if !s.required && s.shape.isDefault (s.get x) then none
      else some (.value (s.shape.toValue (s.get x))) := by
  rw [step?_toValue (filter_isNamed_written r.nodup_names hm hs), Slot.write]
  · split <;> rfl
  · rw [Slot.write]
    split <;> simp

theorem step?_toValue_other (hn : ∀ s ∈ r.slots, s.name ≠ n) :
    (Datum.value (r.toValue x)).step? (.member n) = ((r.extra x).get? n).map .value := by
  have hfields : (r.slots.flatMap (·.write x)).filter (isNamed n) = [] := by
    refine List.filter_eq_nil_iff.2 fun e he hne => ?_
    obtain ⟨s, hs, he⟩ := List.mem_flatMap.1 he
    rw [isNamed, name?_of_mem_write he, beq_iff_eq, Option.some.injEq] at hne
    exact hn s hs hne
  have hextra : (r.toEntries x).filter (isNamed n) = (r.extra x).toEntries.filter (isNamed n) := by
    rw [toEntries, List.filter_append, hfields, List.nil_append]
  rw [step?_toValue hextra]
  · exact bound?_entries (r.extra x) id
  · exact length_filter_isNamed_le (nodup_toEntries _) n

end RecordKind

/-- Nothing stands below what is meant where nothing is written. -/
theorem Shape.step?_of_isDefault {sh : Shape} {c : sh.Content} (h : sh.isDefault c = true)
    (st : Step) : (Datum.value (sh.toValue c)).step? st = none := by
  rw [isDefault_iff] at h
  cases sh with
  | record r => cases h
  | list | groups | spec | labels | text | texts | flag | number | reporter =>
    obtain rfl := Option.some.inj h
    cases st <;> rfl

end Writing

/-! ### Whole documents -/

section Documents

variable {r : RecordKind} {n : String} {x : Datum}

/-- What is written of a record at a path is what was read there. -/
def KeepsAt (sh : Shape) (path : List Step) : Prop :=
  ∀ d c x, sh.read d = some c → d.at? path = some x →
    ∃ v, x.value? = some v ∧ (Datum.value (sh.toValue c)).at? path = some (.value v)

theorem keepsAt_here (hr : r ≠ .jobSet) (hn : ∀ s ∈ r.slots, s.name ≠ n) :
    KeepsAt (.record r) [.member n] := by
  intro d c x hd hx
  obtain ⟨es, hes, hs⟩ := RecordKind.exists_entries hd
  have hextra : r.extra? c = some (r.extra c) := by
    cases r with
    | jobSet => exact absurd rfl hr
    | _ => rfl
  rw [hextra] at hs
  rw [Datum.at?_singleton, Datum.step?, hes] at hx
  obtain ⟨v, hv, hget⟩ := hs.get?_extra hn hx
  refine ⟨v, hv, ?_⟩
  rw [Datum.at?_singleton, Shape.toValue, RecordKind.step?_toValue_other hn, hget]
  rfl

theorem keepsAt_field {s : Slot r.Record} {path : List Step} (hs : s ∈ r.slots) (hp : path ≠ [])
    (h : KeepsAt s.shape path) : KeepsAt (.record r) (.member s.name :: path) := by
  intro d c x hd hx
  obtain ⟨es, hes, hspells⟩ := RecordKind.exists_entries hd
  rw [Datum.at?_cons, Datum.step?, hes, Option.bind_some, Option.bind_eq_some_iff] at hx
  obtain ⟨d', hd', hx⟩ := hx
  have hread := hspells.fields s hs
  rw [hd'] at hread
  obtain ⟨v, hv, hat⟩ := h d' _ x hread hx
  refine ⟨v, hv, ?_⟩
  rw [Datum.at?_cons, Shape.toValue,
    RecordKind.step?_toValue_slot (RecordKind.isExtra hspells) hs, if_neg, Option.bind_some, hat]
  -- a field that is not written has nothing below it
  intro hdefault
  rw [Datum.at?_eq_none (Shape.step?_of_isDefault (Bool.and_eq_true_iff.1 hdefault).2) hp] at hat
  cases hat

theorem keepsAt_item {path : List Step} (h : KeepsAt (.record r) path) (i : Nat) :
    KeepsAt (.list r) (.item i :: path) := by
  intro d c x hd hx
  obtain ⟨ps, hitems, rfl, hps⟩ := Shape.items_of_readList hd
  rw [Datum.at?_cons, Datum.step?, hitems, Option.bind_some, List.getElem?_map,
    Option.bind_eq_some_iff] at hx
  obtain ⟨d', hd', hx⟩ := hx
  obtain ⟨p, hp, rfl⟩ := Option.map_eq_some_iff.1 hd'
  obtain ⟨v, hv, hat⟩ := h p.1 p.2 x (hps p (List.mem_of_getElem? hp)) hx
  refine ⟨v, hv, ?_⟩
  rw [Datum.at?_cons, Shape.toValue, Datum.step?_sequence, List.getElem?_map, List.getElem?_map, hp]
  exact hat

theorem keepsAt_group {path : List Step} (h : KeepsAt (.list r) path) (key : String) :
    KeepsAt (.groups r) (.member key :: path) := by
  intro d c x hd hx
  obtain ⟨es, hes, hread⟩ := Option.bind_eq_some_iff.1 hd
  obtain ⟨l, hl, rfl⟩ := Option.map_eq_some_iff.1 hread
  have hentries : d.entries? = some es := hes
  rw [Datum.at?_cons, Datum.step?, hentries, Option.bind_some, Option.bind_eq_some_iff] at hx
  obtain ⟨d', hd', hx⟩ := hx
  obtain ⟨e, -, jobs, rfl, he, hget⟩ := get?_ofList_of_bound (g := Shape.readGroup r)
    (fun _ _ h => (Shape.of_readGroup h).1) hl hd'
  obtain ⟨v, hv, hat⟩ := h _ jobs x (Shape.of_readGroup he).2 hx
  refine ⟨v, hv, ?_⟩
  rw [Datum.at?_cons, Shape.toValue, Datum.step?_mapping,
    bound?_entries _ fun l : List r.Record => .sequence (l.map r.toValue), hget]
  exact hat

theorem keepsAt_spec {path : List Step} (hp : path ≠ []) (h : KeepsAt (.record .podSpec) path) :
    KeepsAt .spec path := by
  intro d c x hd hx
  obtain ⟨v, hv, hread⟩ := Option.bind_eq_some_iff.1 hd
  by_cases hnull : v = .null
  · rw [Datum.at?_eq_none (Datum.step?_of_null (hnull ▸ hv)) hp] at hx
    cases hx
  · have hspec := Shape.read_spec_of_ne_null hnull
    change (PodSpec.ofValue? v).toOption = _ at hspec
    rw [hspec] at hread
    obtain ⟨s, hs, rfl⟩ := Option.map_eq_some_iff.1 hread
    refine h d s x ?_ hx
    have hvalue : d.value? = some v := hv
    change RecordKind.podSpec.read d = some s
    rw [RecordKind.read_of_isStrict rfl, hvalue]
    exact hs

/-- A member that the schema does not name is written again if it stands in a record below the
root. -/
theorem RecordAt.keepsAt {sh : Shape} {path : List Step} (h : RecordAt sh path r)
    (hr : r ≠ .jobSet) (hn : ∀ s ∈ r.slots, s.name ≠ n) : KeepsAt sh (path ++ [.member n]) := by
  induction h with
  | here => exact keepsAt_here hr hn
  | field hs _ ih => exact keepsAt_field hs (by simp) (ih hr hn)
  | item i _ ih => exact keepsAt_item (ih hr hn) i
  | group key _ ih => exact keepsAt_group (ih hr hn) key
  | spec _ ih => exact keepsAt_spec (by simp) (ih hr hn)

end Documents

/-- The text of a content, if it is compressed or not. -/
def textOf? (content : Bytes) : Option Bytes :=
  if Gzip.isCompressed content then (Gzip.unpack content).toOption else some content

/-- The data of the document of a content. -/
def documentOf? (content : Bytes) : Option Datum :=
  (textOf? content).bind fun text =>
    (Yaml.Document.ofBytes? text).map fun d => d.datum JobSet.hasField

namespace JobSet

variable {content : Bytes} {s : JobSet}

theorem read_of_ofDocument {d : Yaml.Document} (h : ofDocument d = .ok (some s)) :
    JobSet.read (d.datum hasField) = .ok s := by
  rw [← toOption_eq_some_iff] at h
  simp only [ofDocument, toOption_bind, Option.bind_eq_some_iff] at h
  obtain ⟨absent, -, h⟩ := h
  split at h
  · split at h <;> cases h
  · rw [toOption_bind, Option.bind_eq_some_iff] at h
    obtain ⟨set?, hset, h⟩ := h
    obtain rfl : set? = some s := by
      split at h
      · exact Option.some.inj h
      · cases h
    change ((read (d.datum hasField)).map some).toOption = some (some s) at hset
    rw [toOption_map, Option.map_eq_some_iff] at hset
    obtain ⟨s', hs, heq⟩ := hset
    obtain rfl := Option.some.inj heq
    exact toOption_eq_some_iff.1 hs

theorem read_of_ofText {text : Bytes} (h : ofText text = .ok s) :
    ∃ d, Yaml.Document.ofBytes? text = some d ∧ JobSet.read (d.datum hasField) = .ok s := by
  rw [ofText] at h
  split at h
  · cases h
  split at h
  · cases h
  next d hd =>
    refine ⟨d, hd, ?_⟩
    split at h <;> cases h
    next hs => exact read_of_ofDocument hs

/-- The job set of a content is what is read from its document. -/
theorem read_of_ofContent (h : ofContent content = .ok s) :
    ∃ d, documentOf? content = some d ∧ JobSet.read d = .ok s := by
  rw [ofContent] at h
  split at h
  · next hz =>
    split at h
    · cases h
    · next text ht =>
      obtain ⟨d, hd, hs⟩ := read_of_ofText h
      exact ⟨_, by rw [documentOf?, textOf?, if_pos hz, ht]; simp [Except.toOption, hd], hs⟩
  · next hz =>
    obtain ⟨d, hd, hs⟩ := read_of_ofText h
    exact ⟨_, by rw [documentOf?, textOf?, if_neg hz]; simp [hd], hs⟩

/-- Of every document that is a job set, the members that the schema does not name are written again
with their values in all records below the root, and none of them in the root. -/
theorem unnamed_members (h : ofContent content = .ok s) :
    ∃ d, documentOf? content = some d ∧
      (∀ (path : List Step) (r : RecordKind) (n : String) (x : Datum),
        RecordAt (.record .jobSet) path r → r ≠ .jobSet → (∀ slot ∈ r.slots, slot.name ≠ n) →
        d.at? (path ++ [.member n]) = some x →
          ∃ v, x.value? = some v ∧
            (Datum.value s.toValue).at? (path ++ [.member n]) = some (.value v)) ∧
      ∀ n, (∀ slot ∈ JobSet.slots, slot.name ≠ n) →
        (Datum.value s.toValue).at? [.member n] = none := by
  obtain ⟨d, hd, hs⟩ := read_of_ofContent h
  have hread : RecordKind.jobSet.read d = some s := toOption_eq_some_iff.2 hs
  refine ⟨d, hd, fun path r n x hp hr hn hx => ?_, fun n hn => ?_⟩
  · exact hp.keepsAt hr hn d s x hread hx
  · rw [Datum.at?_singleton]
    exact RecordKind.step?_toValue_other (r := .jobSet) hn

/-- A document with a member that the schema does not name in the root, and one in a job. -/
def unnamedText : Bytes :=
  Utf8.encode "x: 1\npresubmits:\n  o/r:\n  - name: a\n    y: 2\n"

/-- The job set of that document. -/
def unnamedSet : JobSet :=
  { presubmits := .ofList [("o/r", [{ name := "a", extra := .ofList [("y", .int 2)] }])] }

/-- The member of the job is written again. -/
theorem unnamed_members_unnamedText :
    ofContent unnamedText = .ok unnamedSet ∧
      (Datum.value unnamedSet.toValue).at?
        [.member "presubmits", .member "o/r", .item 0, .member "y"] = some (.value (.int 2)) := by
  have h : ofContent unnamedText = .ok unnamedSet := by decide +kernel
  obtain ⟨d, hd, hkeep, -⟩ := unnamed_members h
  have hvalue : ((documentOf? unnamedText).bind (·.at?
      [.member "presubmits", .member "o/r", .item 0, .member "y"])).bind Datum.value? =
        some (.int 2) := by decide +kernel
  rw [hd, Option.bind_some, Option.bind_eq_some_iff] at hvalue
  obtain ⟨x, hx, hv⟩ := hvalue
  have hpath : RecordAt (.record .jobSet) [.member "presubmits", .member "o/r", .item 0]
      .presubmit :=
    .field (r := .jobSet) (s := JobSet.slots[0]) (List.getElem_mem _)
      (.group "o/r" (.item 0 .here))
  obtain ⟨v, hv', hat⟩ := hkeep _ .presubmit "y" x hpath (by decide) (by decide) hx
  obtain rfl := Option.some.inj (hv'.symm.trans hv)
  exact ⟨h, hat⟩

/-- The member of the root is not. -/
theorem unnamed_member_of_root :
    ofContent unnamedText = .ok unnamedSet ∧
      ((documentOf? unnamedText).bind (·.at? [.member "x"])).isSome = true ∧
      ((Datum.value unnamedSet.toValue).at? [.member "x"]).isNone = true := by
  decide +kernel

end JobSet

end JobConfig
