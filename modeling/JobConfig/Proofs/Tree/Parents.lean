import JobConfig.Proofs.Tree.Operations

/-!
# Directories that are made on the way

The parent of a path that does not lead up lies on the way to it. So making a directory with its
parents changes the tree at locations on the way to that directory only.
-/

namespace JobConfig

namespace Path

/-! ### Parents -/

theorem dots_not_mem_pieces {p : Path} (h : .up ∉ p.components) : [dot, dot] ∉ p.pieces :=
  fun hm => h (List.mem_append_right _ (List.mem_filterMap.2 ⟨_, hm, rfl⟩))

/-- The first pieces of a path lead to a place on the way. -/
theorem place_upTo {p : Path} (h : [dot, dot] ∉ p.pieces) {reversed qs : List Bytes}
    (hp : p.pieces = reversed.reverse ++ qs) :
    (p.upTo reversed).place <+: p.place ∧ [dot, dot] ∉ (p.upTo reversed).pieces := by
  rw [upTo]
  cases hd : reversed.dropWhile isBlank with
  | nil =>
    -- nothing is kept but the root or the point at the start
    have hlead : ∀ q : Path, q.bytes ∈ [[slash], [], [dot]] →
        q.place <+: p.place ∧ [dot, dot] ∉ q.pieces := by
      rintro ⟨bs⟩ hq
      have hq' : ∀ bs ∈ [[slash], [], [dot]],
          (⟨bs⟩ : Path).place = [] ∧ [dot, dot] ∉ (⟨bs⟩ : Path).pieces := by decide
      exact ⟨by simp [(hq' bs hq).1], (hq' bs hq).2⟩
    simp only
    split
    · exact hlead _ (by simp)
    · split <;> exact hlead _ (by simp)
  | cons m ms =>
    obtain ⟨bs, hbs⟩ : (m :: ms) <:+ reversed := hd ▸ List.dropWhile_suffix _
    have hpieces : p.pieces = (m :: ms).reverse ++ (bs.reverse ++ qs) := by
      rw [hp, ← hbs, List.reverse_append, List.append_assoc]
    have hq : (⟨glue (m :: ms).reverse⟩ : Path).pieces = (m :: ms).reverse :=
      split_glue (by simp) fun n hn =>
        not_mem_of_mem_pieces (p := p) (hpieces ▸ List.mem_append_left _ hn)
    rw [hpieces, List.mem_append, not_or] at h
    obtain ⟨names, hnames⟩ := FileTree.placeFrom_eq_append h.2 (placeFrom [] (m :: ms).reverse)
    simp only [place, hq]
    refine ⟨⟨names, ?_⟩, h.1⟩
    rw [hpieces, placeFrom_append, hnames]

/-- A parent lies on the way. -/
theorem place_parent? {p q : Path} (h : [dot, dot] ∉ p.pieces) (hq : p.parent? = some q) :
    q.place <+: p.place ∧ [dot, dot] ∉ q.pieces := by
  rw [parent?] at hq
  split at hq
  · cases hq
  · cases hq
  · cases hq
    have hnil : (⟨[]⟩ : Path).place = [] ∧ [dot, dot] ∉ (⟨[]⟩ : Path).pieces := by decide
    exact ⟨by simp [hnil.1], hnil.2⟩
  · cases hq
    obtain ⟨bs, hbs⟩ : (p.pieces.reverse.dropWhile isBlank).tail <:+ p.pieces.reverse :=
      (List.tail_suffix _).trans (List.dropWhile_suffix _)
    have hpieces : p.pieces = (p.pieces.reverse.dropWhile isBlank).tail.reverse ++ bs.reverse := by
      rw [← List.reverse_append, hbs, List.reverse_reverse]
    exact place_upTo h hpieces

/-- Slashes at the end do not matter. -/
theorem place_dropSlashes (p : Path) :
    (⟨(p.bytes.reverse.dropWhile (· == slash)).reverse⟩ : Path).place = p.place := by
  obtain ⟨bs⟩ := p
  induction bs using List.reverseRecOn with
  | nil => rfl
  | append_singleton bs b ih =>
    simp only at ih ⊢
    rw [List.reverse_append, List.reverse_singleton, List.singleton_append]
    by_cases hb : b = slash
    · rw [hb, List.dropWhile_cons_of_pos (by simp), ih, place, place, pieces, pieces,
        split_append_slash, placeFrom_append]
      rfl
    · rw [List.dropWhile_cons_of_neg (by simpa using hb), List.reverse_cons, List.reverse_reverse]

end Path

namespace FileTree

open JobConfig.Path (dot isName)

variable {t t' : FileTree} {p : Path} {l k : Location} {disk : Storage}

/-! ### Making directories -/

theorem ancestors_place {p q : Path} (h : [dot, dot] ∉ p.pieces) {fuel : Nat}
    (hq : q ∈ ancestors fuel p) : q.place <+: p.place := by
  induction fuel generalizing p with
  | zero => cases hq
  | succ fuel ih =>
    rw [ancestors] at hq
    split at hq
    · cases hq
    · split at hq
      · cases hq
      · rename_i r hr
        obtain ⟨hrp, hrd⟩ := Path.place_parent? h hr
        rcases List.mem_cons.1 hq with rfl | hq
        · exact List.prefix_rfl
        · exact (ih hrd hq).trans hrp

theorem makeDirectory_get? (ht : t.LinkFree) (h : t.makeDirectory p = .ok t') (hl : l ≠ p.place) :
    t'.get? l = t.get? l := by
  rw [makeDirectory] at h
  split at h
  · cases h
  · rename_i k hr
    cases h
    obtain ⟨hk, -, ha⟩ := resolve_vacant ht hr
    rw [Path.place_dropSlashes] at hk
    rw [get?_put ha, if_neg (hk ▸ hl)]
  · cases h

theorem ensureDirectory_get? (ht : t.LinkFree) (h : t.ensureDirectory p disk = .ok t')
    (hl : l ≠ p.place) : t'.get? l = t.get? l := by
  rw [ensureDirectory] at h
  split at h
  · split at h
    · cases h
      rfl
    · cases h
  · exact makeDirectory_get? ht (Storage.of_grant h) hl

theorem ensureAll_get? (ht : t.LinkFree) {ps : List Path} (hl : ∀ p ∈ ps, l ≠ p.place) :
    (t.ensureAll ps disk).2.get? l = t.get? l := by
  induction ps generalizing t with
  | nil => rfl
  | cons p ps ih =>
    have hp := hl p List.mem_cons_self
    rw [ensureAll]
    split
    · rename_i h
      exact ensureDirectory_get? ht h hp
    · have hps := ih ht fun q hq => hl q (List.mem_cons_of_mem _ hq)
      have hext := ensureAll_extends t ps disk
      split
      · rename_i h
        rwa [h] at hps
      · rename_i t₁ h
        rw [h] at hps hext
        split
        · rename_i h'
          rw [ensureDirectory_get? (hext.linkFree ht) h' hp, hps]
        · exact hps
    · rfl

/-- Making a directory and its parents changes nothing off the way to it, also where it fails. -/
theorem makeDirectories_get? (ht : t.LinkFree) (hup : .up ∉ p.components) (hl : ¬l <+: p.place)
    (disk : Storage) : (t.makeDirectories p disk).2.get? l = t.get? l :=
  ensureAll_get? ht fun _ hq heq =>
    hl (heq ▸ ancestors_place (Path.dots_not_mem_pieces hup) hq)

/-- Where a directory is made that was missing, no path led further. -/
theorem walk_extends (ht : t.LinkFree) (hext : t'.Extends t) {ps qs : List Bytes}
    (hw : t'.walk l ps = .ok (.at k .directory)) (hqs : qs.all (· == []) = false) :
    t.walk l ps = .ok (.at k .directory) ∨ t.walk l (ps ++ qs) = .error .notFound := by
  have ht' := hext.linkFree ht
  induction ps generalizing l with
  | nil => exact .inl hw
  | cons n ps ih =>
    have hn' := enters_of_walk ht' hw
    rw [walk_cons hn'] at hw
    by_cases hn : t.Enters l n
    · rw [List.cons_append, walk_cons hn, walk_cons hn]
      exact ih hw
    · -- the other tree has a directory here, so this one has nothing
      have hnone : t.get? (l ++ [n]) = none := by
        simp only [Enters, not_or] at hn
        have hd := (hn'.resolve_left hn.1).resolve_left hn.2.1
        rcases hext (l ++ [n]) with h | ⟨h, -⟩
        · exact absurd (h ▸ hd) hn.2.2
        · exact h
      have hblank : (ps ++ qs).all (· == []) = false := by
        rw [List.all_append, hqs, Bool.and_false]
      exact .inr (by rw [List.cons_append, walk_of_not_enters ht hn hblank, if_pos hnone])

/-- A name joined to the path of a directory that was missing led nowhere. -/
theorem resolve_join_of_extends (ht : t.LinkFree) (hext : t'.Extends t)
    (hp : t'.isDirectory p = true) (hno : t.isDirectory p = false) {n : Bytes}
    (hn : isName n = true) (follow : Bool) :
    t.resolve follow (p.join ⟨n⟩) = .error .notFound := by
  obtain ⟨hb, hw⟩ := (isDirectory_iff_walk (hext.linkFree ht)).1 hp
  obtain ⟨ps, hps, hwalk⟩ := exists_pieces_join hn hb
  rw [← hwalk _ (hext.linkFree ht)] at hw
  rw [resolve_eq_walk ht, if_neg (Path.join_bytes_ne_nil hn p), hps]
  refine (walk_extends ht hext hw (by simp [Path.ne_nil_of_isName hn])).resolve_left fun hd => ?_
  rw [(isDirectory_iff_walk ht).2 ⟨hb, (hwalk t ht _).1 hd⟩] at hno
  cases hno

end FileTree

end JobConfig
