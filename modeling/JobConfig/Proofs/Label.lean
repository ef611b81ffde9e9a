import JobConfig.Label
import Mathlib.Data.List.DropRight
import Mathlib.Logic.Relation

/-!
# What a label shows of a branch

A label shows the core of a text: its allowed characters, without the punctuation at their ends. Two
texts have the same core if and only if one of them becomes the other by putting in and taking out
characters that do not show. A text without a letter or digit has no core and gets the fallback. The
texts that are labels are those that are labelled by themselves.
-/

namespace JobConfig.Label

open Relation (EqvGen)

variable {p : Char → Bool} {as bs cs ds : List Char} {c : Char} {s t : String}

/-! ### Trimming -/

theorem trim_eq (p : Char → Bool) (cs : List Char) :
    trim p cs = (cs.dropWhile p).rdropWhile p := rfl

/-- What trimming takes off. -/
theorem exists_trim (p : Char → Bool) (cs : List Char) : ∃ as bs,
    (∀ a ∈ as, p a = true) ∧ (∀ b ∈ bs, p b = true) ∧ cs = as ++ trim p cs ++ bs := by
  refine ⟨cs.takeWhile p, (cs.dropWhile p).rtakeWhile p, fun _ => List.mem_takeWhile_imp,
    fun _ => List.mem_rtakeWhile_imp, ?_⟩
  rw [trim_eq, List.append_assoc, List.rdropWhile_append_rtakeWhile,
    List.takeWhile_append_dropWhile]

theorem mem_trim (h : c ∈ trim p cs) : c ∈ cs := by
  obtain ⟨as, bs, -, -, hcs⟩ := exists_trim p cs
  rw [hcs]
  simp [h]

theorem trim_cons (h : p c = true) (cs : List Char) : trim p (c :: cs) = trim p cs := by
  rw [trim, List.dropWhile_cons_of_pos h, trim]

theorem trim_concat (h : p c = true) (cs : List Char) : trim p (cs ++ [c]) = trim p cs := by
  rw [trim_eq, trim_eq, List.dropWhile_append]
  split
  · rename_i hnil
    rw [List.isEmpty_iff.1 hnil, List.dropWhile_cons_of_pos h]
    rfl
  · exact List.rdropWhile_concat_pos p _ c h

theorem trim_append (has : ∀ a ∈ as, p a = true) (hbs : ∀ b ∈ bs, p b = true) (cs : List Char) :
    trim p (as ++ cs ++ bs) = trim p cs := by
  induction bs using List.reverseRecOn with
  | nil =>
    rw [List.append_nil]
    induction as with
    | nil => rfl
    | cons a as ih =>
      obtain ⟨ha, has⟩ := List.forall_mem_cons.1 has
      rw [List.cons_append, trim_cons ha, ih has]
  | append_singleton bs b ih =>
    rw [← List.append_assoc, trim_concat (hbs b (by simp)),
      ih fun b hb => hbs b (List.mem_append_left _ hb)]

theorem trim_eq_nil_iff : trim p cs = [] ↔ ∀ c ∈ cs, p c = true := by
  constructor
  · intro h c hc
    obtain ⟨as, bs, has, hbs, hcs⟩ := exists_trim p cs
    rw [hcs, h, List.append_nil] at hc
    exact (List.mem_append.1 hc).elim (has c) (hbs c)
  · intro h
    have hall : trim p (cs ++ [] ++ []) = trim p [] := trim_append h (by simp) []
    simpa [trim] using hall

theorem head_trim (h : (trim p cs).head? = some c) : p c = false := by
  have hpre : trim p cs <+: cs.dropWhile p := List.rdropWhile_prefix p _
  have hhead : (cs.dropWhile p).head? = some c := by
    obtain ⟨rest, hrest⟩ := hpre
    rw [← hrest, List.head?_append, h]
    rfl
  have hnot := List.head?_dropWhile_not p cs
  rwa [hhead] at hnot

theorem getLast_trim (h : (trim p cs).getLast? = some c) : p c = false := by
  have hne : trim p cs ≠ [] := by
    intro hnil
    simp [hnil] at h
  rw [List.getLast?_eq_some_getLast hne, Option.some.injEq] at h
  rw [← h]
  exact eq_false_of_ne_true (List.rdropWhile_last_not p (cs.dropWhile p) hne)

/-- A text that neither begins nor ends with what is taken off stays as it is. -/
theorem trim_of_ends (hfirst : ∀ c ∈ cs.head?, p c = false)
    (hlast : ∀ c ∈ cs.getLast?, p c = false) : trim p cs = cs := by
  have hdrop : cs.dropWhile p = cs := by
    cases cs with
    | nil => rfl
    | cons c cs => exact List.dropWhile_cons_of_neg (by simp [hfirst c rfl])
  rw [trim_eq, hdrop, List.rdropWhile_eq_self_iff]
  intro hne
  simp [hlast _ (List.getLast?_eq_some_getLast hne)]

/-! ### Characters -/

theorem isAllowed_iff : isAllowed c = true ↔ c.isAlphanum = true ∨ isEdge c = true := by
  simp [isAllowed, isEdge, or_assoc]

theorem not_isEdge_of_isAlphanum (h : c.isAlphanum = true) : isEdge c = false := by
  rw [← Bool.not_eq_true]
  simp only [isEdge, Bool.or_eq_true, beq_iff_eq]
  rintro ((rfl | rfl) | rfl) <;> exact absurd h (by decide)

theorem isEdge_eq_false_iff (h : isAllowed c = true) : isEdge c = false ↔ c.isAlphanum = true := by
  refine ⟨fun he => ?_, not_isEdge_of_isAlphanum⟩
  exact (isAllowed_iff.1 h).resolve_right (by simp [he])

/-! ### The core of a text -/

/-- What a label shows of a text. -/
def core (cs : List Char) : List Char :=
  trim isEdge (cs.filter isAllowed)

theorem isAllowed_of_mem_core (h : c ∈ core cs) : isAllowed c = true :=
  (List.mem_filter.1 (mem_trim h)).2

/-- A text has no core if and only if it has no letter and no digit. -/
theorem core_eq_nil_iff : core cs = [] ↔ ∀ c ∈ cs, c.isAlphanum = false := by
  simp only [core, trim_eq_nil_iff, List.mem_filter, and_imp]
  refine forall₂_congr fun c _ => ?_
  constructor
  · intro h
    rw [← Bool.not_eq_true]
    intro ha
    have hedge := h (isAllowed_iff.2 (.inl ha))
    rw [not_isEdge_of_isAlphanum ha] at hedge
    cases hedge
  · exact fun ha hc => (isAllowed_iff.1 hc).resolve_left (by simp [ha])

/-- The changes of a text that do not show: a character is put in that is not allowed, or
punctuation before or after all allowed characters. -/
inductive Pads : List Char → List Char → Prop where
  | inside {c : Char} (hc : isAllowed c = false) (as bs : List Char) :
    Pads (as ++ bs) (as ++ c :: bs)
  | front {c : Char} (hc : isEdge c = true) {as : List Char} (has : ∀ a ∈ as, isAllowed a = false)
    (bs : List Char) : Pads (as ++ bs) (as ++ c :: bs)
  | back {c : Char} (hc : isEdge c = true) (as : List Char) {bs : List Char}
    (hbs : ∀ b ∈ bs, isAllowed b = false) : Pads (as ++ bs) (as ++ c :: bs)

theorem filter_isAllowed_eq_nil (h : ∀ a ∈ as, isAllowed a = false) : as.filter isAllowed = [] := by
  simpa [List.filter_eq_nil_iff] using h

theorem Pads.core_eq (h : Pads cs ds) : core cs = core ds := by
  cases h with
  | inside hc as bs =>
    rw [core, core, List.filter_append, List.filter_append, List.filter_cons_of_neg (by simp [hc])]
  | front hc has bs =>
    rw [core, core, List.filter_append, List.filter_append, filter_isAllowed_eq_nil has,
      List.filter_cons_of_pos (isAllowed_iff.2 (.inr hc)), List.nil_append, List.nil_append,
      trim_cons hc]
  | back hc as hbs =>
    rw [core, core, List.filter_append, List.filter_append, filter_isAllowed_eq_nil hbs,
      List.filter_cons_of_pos (isAllowed_iff.2 (.inr hc)), filter_isAllowed_eq_nil hbs,
      List.append_nil, trim_concat hc]

theorem eqvGen_filter (pre cs : List Char) :
    EqvGen Pads (pre ++ cs) (pre ++ cs.filter isAllowed) := by
  -- `pre` is what comes before and has been gone through
  induction cs generalizing pre with
  | nil => exact .refl _
  | cons c cs ih =>
    cases hc : isAllowed c with
    | true =>
      have h := ih (pre ++ [c])
      rw [List.append_assoc, List.append_assoc] at h
      rwa [List.filter_cons_of_pos hc]
    | false =>
      rw [List.filter_cons_of_neg (by simp [hc])]
      exact .trans _ _ _ (.symm _ _ (.rel _ _ (.inside hc pre cs))) (ih pre)

theorem eqvGen_front (has : ∀ a ∈ as, isEdge a = true) (cs : List Char) :
    EqvGen Pads cs (as ++ cs) := by
  induction as with
  | nil => exact .refl _
  | cons a as ih =>
    obtain ⟨ha, has⟩ := List.forall_mem_cons.1 has
    exact .trans _ _ _ (ih has) (.rel _ _ (.front ha (List.forall_mem_nil _) (as ++ cs)))

theorem eqvGen_back (hbs : ∀ b ∈ bs, isEdge b = true) (cs : List Char) :
    EqvGen Pads cs (cs ++ bs) := by
  induction bs using List.reverseRecOn with
  | nil =>
    rw [List.append_nil]
    exact .refl _
  | append_singleton bs b ih =>
    have hb : Pads (cs ++ bs ++ []) (cs ++ bs ++ [b]) :=
      .back (hbs b (by simp)) (cs ++ bs) (List.forall_mem_nil _)
    rw [List.append_nil, List.append_assoc] at hb
    exact .trans _ _ _ (ih fun b hb => hbs b (List.mem_append_left _ hb)) (.rel _ _ hb)

/-- A text becomes its core by changes that do not show. -/
theorem eqvGen_core (cs : List Char) : EqvGen Pads cs (core cs) := by
  obtain ⟨as, bs, has, hbs, hcs⟩ := exists_trim isEdge (cs.filter isAllowed)
  have hfilter : EqvGen Pads cs (cs.filter isAllowed) := eqvGen_filter [] cs
  have hends : EqvGen Pads (core cs) (cs.filter isAllowed) := by
    rw [hcs, List.append_assoc]
    exact .trans _ _ _ (eqvGen_back hbs _) (eqvGen_front has _)
  exact .trans _ _ _ hfilter (.symm _ _ hends)

/-- Two texts have the same core if and only if one becomes the other by changes that do not
show. -/
theorem core_eq_iff : core cs = core ds ↔ EqvGen Pads cs ds := by
  constructor
  · intro h
    have hds := eqvGen_core ds
    rw [← h] at hds
    exact .trans _ _ _ (eqvGen_core cs) (.symm _ _ hds)
  · intro h
    induction h with
    | rel _ _ h => exact h.core_eq
    | refl => rfl
    | symm _ _ _ ih => exact ih.symm
    | trans _ _ _ _ _ ih ih' => exact ih.trans ih'

/-! ### Labels -/

/-- Whether a text has allowed characters only, and begins and ends with a letter or digit. -/
structure IsLabel (s : String) : Prop where
  allowed : ∀ c ∈ s.toList, isAllowed c = true
  first : s.toList.head?.any Char.isAlphanum = true
  last : s.toList.getLast?.any Char.isAlphanum = true

instance (s : String) : Decidable (IsLabel s) :=
  decidable_of_iff (s.toList.all isAllowed = true ∧
    s.toList.head?.any Char.isAlphanum = true ∧ s.toList.getLast?.any Char.isAlphanum = true)
    ⟨fun ⟨ha, hf, hl⟩ => ⟨List.all_eq_true.1 ha, hf, hl⟩,
      fun h => ⟨List.all_eq_true.2 h.allowed, h.first, h.last⟩⟩

theorem IsLabel.ne_empty (h : IsLabel s) : s ≠ "" := by
  rintro rfl
  exact absurd h.first (by decide)

theorem ofBranch_eq (s : String) : ofBranch s =
    if core s.toList = [] then fallback else String.ofList (core s.toList) := by
  rw [ofBranch, ← core]
  cases core s.toList <;> simp

theorem isLabel_core (h : core cs ≠ []) : IsLabel (String.ofList (core cs)) where
  allowed := by
    rw [String.toList_ofList]
    exact fun c => isAllowed_of_mem_core
  first := by
    obtain ⟨c, hc⟩ := Option.ne_none_iff_exists'.1 (mt List.head?_eq_none_iff.1 h)
    rw [String.toList_ofList, hc, Option.any_some]
    exact (isEdge_eq_false_iff (isAllowed_of_mem_core (List.mem_of_head? hc))).1 (head_trim hc)
  last := by
    obtain ⟨c, hc⟩ := Option.ne_none_iff_exists'.1 (mt List.getLast?_eq_none_iff.1 h)
    rw [String.toList_ofList, hc, Option.any_some]
    exact (isEdge_eq_false_iff (isAllowed_of_mem_core (List.mem_of_getLast? hc))).1
      (getLast_trim hc)

theorem isLabel_ofBranch (s : String) : IsLabel (ofBranch s) := by
  rw [ofBranch_eq]
  split
  · decide
  · exact isLabel_core ‹_›

/-- A label is its own core. -/
theorem IsLabel.core_eq (h : IsLabel s) : core s.toList = s.toList := by
  have hends : ∀ {o : Option Char}, o.any Char.isAlphanum = true → ∀ c ∈ o, isEdge c = false := by
    rintro _ ho c rfl
    exact not_isEdge_of_isAlphanum ho
  rw [core, List.filter_eq_self.2 h.allowed]
  exact trim_of_ends (hends h.first) (hends h.last)

theorem IsLabel.ofBranch_eq (h : IsLabel s) : ofBranch s = s := by
  have hne : s.toList ≠ [] := by simpa using h.ne_empty
  rw [Label.ofBranch_eq, h.core_eq, if_neg hne, String.ofList_toList]

theorem slash_not_mem_ofBranch (branch : String) : '/' ∉ (ofBranch branch).toList := fun h =>
  absurd ((isLabel_ofBranch branch).allowed _ h) (by decide)

/-- The label of a text has allowed characters only, and begins and ends with a letter or digit. It
is the core of the text, or the fallback if the text has no letter and no digit. Texts that become
each other by changes that do not show have the same label, labels are labelled by themselves, and
no other texts are. -/
theorem ofBranch_normalizes (s : String) :
    (ofBranch s ≠ "" ∧ IsLabel (ofBranch s)) ∧
    (core s.toList = [] ↔ ∀ c ∈ s.toList, c.isAlphanum = false) ∧
    ofBranch s = (if core s.toList = [] then "master" else String.ofList (core s.toList)) ∧
    (∀ t : String, core s.toList = core t.toList ↔ EqvGen Pads s.toList t.toList) ∧
    (∀ t : String, EqvGen Pads s.toList t.toList → ofBranch s = ofBranch t) ∧
    ofBranch (ofBranch s) = ofBranch s ∧ (ofBranch s = s ↔ s ≠ "" ∧ IsLabel s) := by
  have hlabel := isLabel_ofBranch s
  refine ⟨⟨hlabel.ne_empty, hlabel⟩, core_eq_nil_iff, ofBranch_eq s, fun t => core_eq_iff,
    fun t h => ?_, hlabel.ofBranch_eq, ?_⟩
  · rw [ofBranch_eq, ofBranch_eq, core_eq_iff.2 h]
  · exact ⟨fun h => h ▸ ⟨hlabel.ne_empty, hlabel⟩, fun h => h.2.ofBranch_eq⟩

/-- A letter outside the allowed ones and the dash before it are not seen in the label, so that the
text is not its own label. -/
theorem ofBranch_normalizes_feature :
    EqvGen Pads "feature".toList "feature-é".toList ∧ ofBranch "feature" = ofBranch "feature-é" ∧
      ofBranch "feature" = "feature" ∧ ofBranch "feature-é" ≠ "feature-é" := by
  have hdash : Pads "feature".toList "feature-".toList :=
    .back (by decide) "feature".toList (List.forall_mem_nil _)
  have hletter : Pads "feature-".toList "feature-é".toList :=
    .inside (c := 'é') (by decide) "feature-".toList []
  have h : EqvGen Pads "feature".toList "feature-é".toList :=
    .trans _ _ _ (.rel _ _ hdash) (.rel _ _ hletter)
  obtain ⟨-, -, -, -, hsame, -, hself⟩ := ofBranch_normalizes "feature"
  obtain ⟨-, -, -, -, -, -, hself'⟩ := ofBranch_normalizes "feature-é"
  exact ⟨h, hsame _ h, hself.2 (by decide), fun heq => absurd (hself'.1 heq).2 (by decide)⟩

end JobConfig.Label
