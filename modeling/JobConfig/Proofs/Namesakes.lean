import JobConfig.Proofs.Run
import JobConfig.Proofs.StableSort
import Mathlib.Data.List.Pairwise

/-!
# Files of one name

Of the files of one name the first that a scan hands over receives the shard of the name. So two
scans of the same files may lead to different plans, but only if they hand over the files of some
shard's name in different orders: a plan is determined by the receivers of the shards.
-/

namespace JobConfig

variable {jobDir dir : Path} {org repo n : String} {generated s : JobSet} {shards : Shards}
  {found found' : List (Identity × JobSet)}

/-! ### Receivers -/

/-- Whether all shards have the same receivers among files in one order and in another. -/
def SameReceivers (shards : Shards) (dir : Path) (found found' : List (Identity × JobSet)) : Prop :=
  ∀ shard ∈ shards.entries, receiver dir found' shard.1 = receiver dir found shard.1

instance (shards : Shards) (dir : Path) (found found' : List (Identity × JobSet)) :
    Decidable (SameReceivers shards dir found found') :=
  inferInstanceAs (Decidable (∀ shard ∈ shards.entries, _))

theorem SameReceivers.refl (shards : Shards) (dir : Path) (found : List (Identity × JobSet)) :
    SameReceivers shards dir found found :=
  fun _ _ => rfl

theorem SameReceivers.receiver_eq (h : SameReceivers shards dir found found')
    (hs : shards.get? n = some s) : receiver dir found' n = receiver dir found n :=
  h (n, s) (KeyMap.mem_entries_iff.2 hs)

/-- Which shard a file takes is decided by the receivers of the shards. -/
theorem SameReceivers.takenShard?_eq (h : SameReceivers shards dir found found')
    (hp : found.Perm found') {e : Identity × JobSet} (he : e ∈ found) :
    takenShard? shards found' e.1.file = takenShard? shards found e.1.file := by
  cases hs : shards.get? (shardName e.1.file) with
  | none => rw [takenShard?_eq_none hs, takenShard?_eq_none hs]
  | some s =>
    have hfirst : IsFirst found' e.1.file ↔ IsFirst found e.1.file := by
      rw [isFirst_iff_receiver (hp.mem_iff.1 he) dir, isFirst_iff_receiver he dir,
        h.receiver_eq hs]
    simp only [takenShard?, hfirst]

/-- In the order of the paths the receiver of a shard is the least file of its name. -/
theorem receiver_eq_or_lt (hinc : found.Pairwise fun a b =>
      compare a.1.file.sortKey b.1.file.sortKey = .lt) {e : Identity × JobSet} (he : e ∈ found)
    (dir : Path) :
    receiver dir found (shardName e.1.file) = e.1.file ∨
      compare (receiver dir found (shardName e.1.file)).sortKey e.1.file.sortKey = .lt := by
  induction found with
  | nil => cases he
  | cons e₀ found ih =>
    obtain ⟨hlt, hinc⟩ := List.pairwise_cons.1 hinc
    rw [receiver, firstNamed?_cons]
    rcases List.mem_cons.1 he with rfl | he
    · simp
    · split
      · exact .inr (hlt e he)
      · exact ih hinc he

/-! ### Plans -/

/-- The shards that no file takes are the same in every order. -/
theorem planFiles_snd_perm {c : Considered} (hp : found.Perm found') :
    (planFiles c shards found).2 = (planFiles c shards found').2 := by
  refine KeyMap.ext_get? fun n => ?_
  simp only [get?_planFiles_snd, hp.mem_iff]

/-- Files whose paths are apart have the same plan in two orders with the same receivers. -/
theorem planOf_congr (hpaths : found.Pairwise fun a b => a.1.file.sortKey ≠ b.1.file.sortKey)
    (hp : found.Perm found')
    (h : SameReceivers (generated.shards org repo) (repoDir jobDir org repo) found found') :
    planOf jobDir org repo generated found' = planOf jobDir org repo generated found := by
  have hnodup : (found.map (·.1.file)).Nodup :=
    List.pairwise_map.2 (hpaths.imp fun {a b} hne heq => hne (by rw [heq]))
  have hnodup' : (found'.map (·.1.file)).Nodup := (hp.map _).nodup_iff.1 hnodup
  have hsettled : found'.map (fun e => (⟨e.1.file, settle (generated.considered org repo) e.2
        (takenShard? (generated.shards org repo) found' e.1.file)⟩ : Planned)) =
      found'.map fun e => ⟨e.1.file, settle (generated.considered org repo) e.2
        (takenShard? (generated.shards org repo) found e.1.file)⟩ :=
    List.map_congr_left fun e he => by rw [h.takenShard?_eq hp (hp.mem_iff.2 he)]
  simp only [planOf, planFiles_fst hnodup, planFiles_fst hnodup', planFiles_snd_perm hp.symm,
    hsettled]
  refine sortBy_append_congr (hp.map _).symm ?_ _
  exact List.pairwise_map.2 (hpaths.perm hp fun hne => hne.symm)

theorem found_apart (t : FileTree) (dir : Path) (scan : Scanner) :
    (t.found dir scan).Pairwise fun a b => a.1.file.sortKey ≠ b.1.file.sortKey := by
  have hwalk : (t.found dir).Pairwise fun a b => a.1.file.sortKey ≠ b.1.file.sortKey :=
    (found_increasing t dir).imp fun hlt heq => by
      rw [heq, Std.ReflOrd.compare_self] at hlt
      cases hlt
  exact hwalk.perm (found_perm t dir scan).symm fun hne => hne.symm

/-- Two scans that find the same files lead to the same plan if each shard has the same receiver. -/
theorem FileTree.plan_eq_of_sameReceivers {t t' : FileTree} {scan scan' : Scanner}
    (hp : (t.found (repoDir jobDir org repo) scan).Perm (t'.found (repoDir jobDir org repo) scan'))
    (h : SameReceivers (generated.shards org repo) (repoDir jobDir org repo)
      (t.found (repoDir jobDir org repo) scan) (t'.found (repoDir jobDir org repo) scan')) :
    t'.plan jobDir org repo generated scan' = t.plan jobDir org repo generated scan :=
  planOf_congr (found_apart t _ scan) hp h

/-- Two scans of one tree find the same files. -/
theorem found_perm_found (t : FileTree) (dir : Path) (scan scan' : Scanner) :
    (t.found dir scan).Perm (t.found dir scan') :=
  (found_perm t dir scan).trans (found_perm t dir scan').symm

/-! ### Shards without namesakes -/

/-- Whether no shard has the name of two files. -/
def OneTaker (shards : Shards) (loaded : List (Identity × JobSet)) : Prop :=
  loaded.Pairwise fun a b =>
    shardName a.1.file = shardName b.1.file → shards.get? (shardName a.1.file) = none

instance (shards : Shards) (loaded : List (Identity × JobSet)) :
    Decidable (OneTaker shards loaded) :=
  inferInstanceAs (Decidable (loaded.Pairwise _))

theorem OneTaker.perm (h : OneTaker shards found) (hp : found.Perm found') :
    OneTaker shards found' :=
  List.Pairwise.perm h hp fun {a b} hab heq => by rw [heq, hab heq.symm]

/-- A file that is the only one of a shard's name receives it in every order. -/
theorem OneTaker.firstNamed? (h : OneTaker shards found) {e : Identity × JobSet} (he : e ∈ found)
    (hs : shards.get? (shardName e.1.file) = some s) :
    firstNamed? found (shardName e.1.file) = some e.1.file := by
  cases hp : JobConfig.firstNamed? found (shardName e.1.file) with
  | none => exact absurd rfl (firstNamed?_eq_none_iff.1 hp e he)
  | some p =>
    obtain ⟨e', he', rfl, hn⟩ := exists_of_firstNamed? hp
    by_cases hee : e' = e
    · rw [hee]
    · have hsymm : Std.Symm fun a b : Identity × JobSet =>
          shardName a.1.file = shardName b.1.file → shards.get? (shardName a.1.file) = none :=
        ⟨fun a b hab heq => by rw [heq, hab heq.symm]⟩
      have hnone := List.Pairwise.forall h he' he hee hn
      rw [hn, hs] at hnone
      cases hnone

/-- Where no shard has the name of two files, its receiver is the same in every order. -/
theorem OneTaker.sameReceivers (h : OneTaker shards found) (hp : found.Perm found') (dir : Path) :
    SameReceivers shards dir found found' := by
  rintro ⟨n, s⟩ hs
  have hs := KeyMap.mem_entries_iff.1 hs
  by_cases hn : ∃ e ∈ found, shardName e.1.file = n
  · obtain ⟨e, he, rfl⟩ := hn
    rw [receiver, receiver, h.firstNamed? he hs, (h.perm hp).firstNamed? (hp.mem_iff.1 he) hs]
  · simp only [not_exists, not_and] at hn
    rw [receiver_of_not_found dir hn, receiver_of_not_found dir fun e he => hn e (hp.mem_iff.2 he)]

/-! ### Two files of one name -/

/-- The other order in which files may be handed over. -/
def Scanner.reversed : Scanner where
  deliver t root := (t.loaded root).reverse
  perm _ _ := List.reverse_perm _

namespace FileTree

set_option maxRecDepth 100000 in
theorem oneTaker_handTree : OneTaker ((smallJobs Job.newlyGenerated).shards "o" "r")
    (handTree.found (repoDir smallDir "o" "r")) := by
  decide +kernel

/-- A tree with a file of another directory that has the name of a shard. -/
def nestedTree : FileTree :=
  let place (names : List String) : Location := names.map Utf8.encode
  (((smallTree []).put (place ["jobs", "o", "r", "o"]) .directory).put
    (place ["jobs", "o", "r", "o", "r"]) .directory).put
    (place ["jobs", "o", "r", "o", "r", "o-r-master-presubmits.yaml"])
      (.file (Utf8.encode "presubmits:\n  o/r:\n  - name: b\n"))

end FileTree

/-- A tree with two files of one name, and with none of the name of another shard. -/
def twinTree : FileTree :=
  FileTree.nestedTree.put (["jobs", "o", "r", "o-r-master-presubmits.yaml"].map Utf8.encode)
    (.file (Utf8.encode "presubmits:\n  o/r:\n  - name: c\n"))

end JobConfig
