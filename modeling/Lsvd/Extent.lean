import Lsvd.Basic

/-!
# The extent algebra

`Extent` and its operations are not among the sources; they are modelled from section 4.1 of the
spec. `clamp` is the intersection, `sub` the difference as at most two extents, and `subMany` the
difference with a list, by the spec's canonical algorithm: sort the subtractors by start, and
replace each hole that one of them overlaps by what `sub` leaves of it. All of them reject empty
extents.

Each operation is characterised block by block (`mem_clamp`, `mem_sub`, `subMany_spec`), and the
pieces they return are never empty, which is what the read path needs to pass them on to the next
operation.
-/

namespace Lsvd

/-- `Extent`: the blocks `[lba, lba + blocks)`. -/
structure Extent where
  lba : ℕ
  blocks : ℕ
deriving DecidableEq, Repr

namespace Extent

/-- The first block past the extent. -/
def stop (e : Extent) : ℕ := e.lba + e.blocks

/-- Block `l` is in the extent. -/
instance : Membership ℕ Extent := ⟨fun e l => e.lba ≤ l ∧ l < e.stop⟩

theorem mem_iff {e : Extent} {l : ℕ} : l ∈ e ↔ e.lba ≤ l ∧ l < e.lba + e.blocks := Iff.rfl

instance (l : ℕ) (e : Extent) : Decidable (l ∈ e) := inferInstanceAs (Decidable (_ ∧ _))

/-- `a` lies within `b`. -/
instance : HasSubset Extent := ⟨fun a b => b.lba ≤ a.lba ∧ a.stop ≤ b.stop⟩

theorem subset_iff {a b : Extent} : a ⊆ b ↔ b.lba ≤ a.lba ∧ a.lba + a.blocks ≤ b.lba + b.blocks :=
  Iff.rfl

instance (a b : Extent) : Decidable (a ⊆ b) := inferInstanceAs (Decidable (_ ∧ _))

/-- A non-empty extent whose blocks all lie in `b` lies within `b`. -/
theorem subset_of_mem {a b : Extent} (ha : 0 < a.blocks) (h : ∀ l ∈ a, l ∈ b) : a ⊆ b := by
  have h1 := h a.lba (by rw [mem_iff]; omega)
  have h2 := h (a.lba + a.blocks - 1) (by rw [mem_iff]; omega)
  rw [mem_iff] at h1 h2
  rw [subset_iff]
  omega

theorem mem_of_subset {a b : Extent} (h : a ⊆ b) {l : ℕ} (hl : l ∈ a) : l ∈ b := by
  rw [subset_iff] at h; rw [mem_iff] at hl ⊢; omega

theorem subset_refl (a : Extent) : a ⊆ a := subset_iff.mpr ⟨le_rfl, le_rfl⟩

theorem subset_trans {a b c : Extent} (hab : a ⊆ b) (hbc : b ⊆ c) : a ⊆ c := by
  rw [subset_iff] at *; omega

/-- Modelled from the spec: `Clamp(a, b)`, the intersection `a ∩ b`; `none` when it is empty. -/
def clamp (a b : Extent) : Option Extent :=
  if max a.lba b.lba < min a.stop b.stop then
    some ⟨max a.lba b.lba, min a.stop b.stop - max a.lba b.lba⟩
  else none

/-- The blocks of a clamp are those of both extents. -/
theorem mem_clamp {a b c : Extent} (h : a.clamp b = some c) (l : ℕ) : l ∈ c ↔ l ∈ a ∧ l ∈ b := by
  unfold clamp at h
  split at h
  · cases h; simp only [mem_iff, stop] at *; omega
  · cases h

/-- A clamp is never empty. -/
theorem clamp_blocks_pos {a b c : Extent} (h : a.clamp b = some c) : 0 < c.blocks := by
  unfold clamp at h
  split at h
  · cases h; simp only [stop] at *; omega
  · cases h

/-- Extents with no block in common have no clamp, and the others have one. -/
theorem clamp_eq_none {a b : Extent} : a.clamp b = none ↔ ∀ l ∈ a, l ∉ b := by
  unfold clamp
  split
  · rename_i h
    simp only [reduceCtorEq, false_iff, not_forall, not_not]
    exact ⟨max a.lba b.lba, by simp only [mem_iff, stop] at *; omega,
      by simp only [mem_iff, stop] at *; omega⟩
  · rename_i h
    simp only [true_iff]
    intro l hl hl'
    simp only [mem_iff, stop] at *
    omega

/-- A non-empty extent within `b` clamps to itself. -/
theorem clamp_of_subset {a b : Extent} (ha : 0 < a.blocks) (h : a ⊆ b) : a.clamp b = some a := by
  obtain ⟨lba, blocks⟩ := a
  rw [subset_iff] at h
  simp only at ha h
  simp only [clamp, stop, Option.ite_none_right_eq_some, Option.some.injEq, Extent.mk.injEq]
  omega

/-- The cases of `TestExtent`'s `clamp`. -/
example : (⟨1, 10⟩ : Extent).clamp ⟨2, 4⟩ = some ⟨2, 4⟩ ∧
    (⟨1, 32⟩ : Extent).clamp ⟨28, 32⟩ = some ⟨28, 5⟩ ∧
    (⟨121667583, 2⟩ : Extent).clamp ⟨121667583, 1⟩ = some ⟨121667583, 1⟩ := by
  decide

/-- Modelled from the spec: `Sub(a, b)`, the blocks of `a` not in `b` as at most two extents in
ascending order, those before `b` and those after it. -/
def sub (a b : Extent) : Option (List Extent) :=
  if a.blocks = 0 ∨ b.blocks = 0 then none
  else
    some ((if a.lba < b.lba then [⟨a.lba, min a.stop b.lba - a.lba⟩] else []) ++
      (if b.stop < a.stop then [⟨max a.lba b.stop, a.stop - max a.lba b.stop⟩] else []))

/-- `sub` fails exactly on an empty extent. -/
theorem sub_isSome {a b : Extent} (ha : 0 < a.blocks) (hb : 0 < b.blocks) : (a.sub b).isSome := by
  simp [sub, Nat.pos_iff_ne_zero.mp ha, Nat.pos_iff_ne_zero.mp hb]

/-- The pieces of `sub` are the blocks of `a` not in `b`, and none of them is empty. -/
theorem mem_sub {a b : Extent} {ps : List Extent} (h : a.sub b = some ps) :
    (∀ l, (∃ p ∈ ps, l ∈ p) ↔ l ∈ a ∧ l ∉ b) ∧ ∀ p ∈ ps, 0 < p.blocks := by
  unfold sub at h
  split at h
  · cases h
  · cases h
    simp only [List.mem_append, List.mem_ite_nil_right, List.mem_singleton, or_and_right, and_assoc,
      exists_or, exists_and_left, exists_eq_left, mem_iff, stop]
    constructor
    · intro l
      omega
    · rintro p (⟨hc, rfl⟩ | ⟨hc, rfl⟩) <;> dsimp only <;> omega

/-- The pieces of `sub` have no block in common. -/
theorem sub_pairwise {a b : Extent} {ps : List Extent} (h : a.sub b = some ps) :
    ps.Pairwise fun p q => ∀ l ∈ p, l ∉ q := by
  unfold sub at h
  split at h
  · cases h
  · cases h
    split_ifs <;> simp only [List.nil_append, List.append_nil, List.singleton_append,
      List.pairwise_cons, List.mem_singleton, forall_eq, List.not_mem_nil, false_implies,
      implies_true, List.Pairwise.nil, and_true, List.pairwise_singleton]
    -- Both pieces: the first ends before `b`, the second starts after it.
    intro l h1 h2
    simp only [mem_iff, stop] at *
    omega

/-- `sub` takes away exactly the blocks of the clamp. -/
theorem sub_blocks {a b : Extent} {ps : List Extent} (h : a.sub b = some ps) :
    (ps.map blocks).sum + ((a.clamp b).map blocks).getD 0 = a.blocks := by
  unfold sub at h
  split at h
  · cases h
  · cases h
    unfold clamp
    unfold stop at *
    split_ifs <;> simp only [List.map_append, List.map_cons, List.map_nil, List.sum_append,
      List.sum_cons, List.sum_nil, Option.map_some', Option.map_none', Option.getD_some,
      Option.getD_none] <;> omega

/-- The cases of `TestExtent`'s `sub`. -/
example : (⟨1, 10⟩ : Extent).sub ⟨1, 1⟩ = some [⟨2, 9⟩] ∧
    (⟨1, 10⟩ : Extent).sub ⟨2, 1⟩ = some [⟨1, 1⟩, ⟨3, 8⟩] ∧
    (⟨1, 10⟩ : Extent).sub ⟨9, 2⟩ = some [⟨1, 8⟩] ∧
    (⟨1, 10⟩ : Extent).sub ⟨9, 1⟩ = some [⟨1, 8⟩, ⟨10, 1⟩] ∧
    (⟨10, 10⟩ : Extent).sub ⟨8, 3⟩ = some [⟨11, 9⟩] := by
  decide

/-- One subtractor applied to the holes: each hole it overlaps is replaced by what `sub` leaves
of it. -/
def subHoles (e : Extent) : List Extent → Option (List Extent)
  | [] => some []
  | h :: hs => do
    let r ← if (h.clamp e).isSome then h.sub e else some [h]
    let rs ← subHoles e hs
    pure (r ++ rs)

/-- Modelled from the spec: `SubMany(a, list)`, the blocks of `a` in no extent of the list, by the
canonical algorithm: sort the list by start, then subtract each in turn from the holes. -/
def subMany (a : Extent) (es : List Extent) : Option (List Extent) :=
  if a.blocks = 0 ∨ es.any (·.blocks = 0) then none
  else (es.mergeSort fun x y => x.lba ≤ y.lba).foldlM (fun holes e => subHoles e holes) [a]

/-- Subtracting one non-empty extent from non-empty holes succeeds, keeps the holes non-empty,
and removes exactly its blocks. -/
theorem subHoles_spec {e : Extent} (he : 0 < e.blocks) (hs : List Extent)
    (hpos : ∀ h ∈ hs, 0 < h.blocks) :
    ∃ hs', subHoles e hs = some hs' ∧ (∀ l, (∃ h ∈ hs', l ∈ h) ↔ (∃ h ∈ hs, l ∈ h) ∧ l ∉ e) ∧
      ∀ h ∈ hs', 0 < h.blocks := by
  induction hs with
  | nil => exact ⟨[], rfl, by simp, by simp⟩
  | cons h hs ih =>
    obtain ⟨rs, hrs, hmem, hpos'⟩ := ih fun h' h'm => hpos h' (List.mem_cons_of_mem _ h'm)
    have h0 := hpos h (List.mem_cons_self _ _)
    by_cases hc : (h.clamp e).isSome
    · obtain ⟨ps, hps⟩ := Option.isSome_iff_exists.mp (sub_isSome h0 he)
      obtain ⟨hpm, hpp⟩ := mem_sub hps
      refine ⟨ps ++ rs, by simp [subHoles, hc, hps, hrs], fun l => ?_, ?_⟩
      · simp only [List.mem_append, List.mem_cons]
        constructor
        · rintro ⟨p, hp | hp, hl⟩
          · obtain ⟨hla, hle⟩ := (hpm l).mp ⟨p, hp, hl⟩; exact ⟨⟨h, .inl rfl, hla⟩, hle⟩
          · obtain ⟨⟨q, hq, hlq⟩, hle⟩ := (hmem l).mp ⟨p, hp, hl⟩; exact ⟨⟨q, .inr hq, hlq⟩, hle⟩
        · rintro ⟨⟨q, rfl | hq, hlq⟩, hle⟩
          · obtain ⟨p, hp, hl⟩ := (hpm l).mpr ⟨hlq, hle⟩; exact ⟨p, .inl hp, hl⟩
          · obtain ⟨p, hp, hl⟩ := (hmem l).mpr ⟨⟨q, hq, hlq⟩, hle⟩; exact ⟨p, .inr hp, hl⟩
      · intro p hp
        rcases List.mem_append.mp hp with hp | hp
        exacts [hpp p hp, hpos' p hp]
    · have hdis := clamp_eq_none.mp (Option.not_isSome_iff_eq_none.mp hc)
      refine ⟨h :: rs, by simp [subHoles, hc, hrs], fun l => ?_, ?_⟩
      · simp only [List.mem_cons]
        constructor
        · rintro ⟨p, rfl | hp, hl⟩
          · exact ⟨⟨p, .inl rfl, hl⟩, hdis l hl⟩
          · obtain ⟨⟨q, hq, hlq⟩, hle⟩ := (hmem l).mp ⟨p, hp, hl⟩; exact ⟨⟨q, .inr hq, hlq⟩, hle⟩
        · rintro ⟨⟨q, rfl | hq, hlq⟩, hle⟩
          · exact ⟨q, .inl rfl, hlq⟩
          · obtain ⟨p, hp, hl⟩ := (hmem l).mpr ⟨⟨q, hq, hlq⟩, hle⟩; exact ⟨p, .inr hp, hl⟩
      · intro p hp
        rcases List.mem_cons.mp hp with rfl | hp
        exacts [h0, hpos' p hp]

/-- Subtracting non-empty extents one after another from non-empty holes. -/
theorem foldlM_subHoles_spec (es : List Extent) (hes : ∀ e ∈ es, 0 < e.blocks)
    (hs : List Extent) (hpos : ∀ h ∈ hs, 0 < h.blocks) :
    ∃ hs', es.foldlM (fun holes e => subHoles e holes) hs = some hs' ∧
      (∀ l, (∃ h ∈ hs', l ∈ h) ↔ (∃ h ∈ hs, l ∈ h) ∧ ∀ e ∈ es, l ∉ e) ∧
      ∀ h ∈ hs', 0 < h.blocks := by
  induction es generalizing hs with
  | nil => exact ⟨hs, rfl, by simp, hpos⟩
  | cons e es ih =>
    obtain ⟨hs₁, h₁, hm₁, hp₁⟩ := subHoles_spec (hes e (List.mem_cons_self _ _)) hs hpos
    obtain ⟨hs₂, h₂, hm₂, hp₂⟩ := ih (fun e' he' => hes e' (List.mem_cons_of_mem _ he')) hs₁ hp₁
    refine ⟨hs₂, by simp [List.foldlM_cons, h₁, h₂], fun l => ?_, hp₂⟩
    rw [hm₂, hm₁]
    simp only [List.mem_cons, forall_eq_or_imp]
    tauto

/-- `SubMany` of a non-empty extent and non-empty extents succeeds with non-empty holes, which
are exactly the blocks of `a` in none of the extents. -/
theorem subMany_spec {a : Extent} (ha : 0 < a.blocks) {es : List Extent}
    (hes : ∀ e ∈ es, 0 < e.blocks) :
    ∃ hs, a.subMany es = some hs ∧ (∀ l, (∃ h ∈ hs, l ∈ h) ↔ l ∈ a ∧ ∀ e ∈ es, l ∉ e) ∧
      ∀ h ∈ hs, 0 < h.blocks := by
  have hsorted : ∀ e ∈ es.mergeSort (fun x y => x.lba ≤ y.lba), 0 < e.blocks :=
    fun e he => hes e (List.mem_mergeSort.mp he)
  obtain ⟨hs, h, hm, hp⟩ := foldlM_subHoles_spec _ hsorted [a] (by simpa using ha)
  refine ⟨hs, ?_, fun l => ?_, hp⟩
  · have : ¬(a.blocks = 0 ∨ es.any (·.blocks = 0) = true) := by
      simp only [List.any_eq_true, decide_eq_true_eq, not_or, not_exists, not_and]
      exact ⟨by omega, fun e he => by have := hes e he; omega⟩
    simp only [subMany, this, if_false, h]
  · rw [hm]
    simp [List.mem_mergeSort]

/-- The cases of `TestExtent`'s `sub_many`, in either order of the subtractors. -/
example : (⟨0, 10⟩ : Extent).subMany [⟨1, 1⟩, ⟨2, 1⟩, ⟨8, 2⟩] = some [⟨0, 1⟩, ⟨3, 5⟩] ∧
    (⟨0, 10⟩ : Extent).subMany [⟨8, 2⟩, ⟨2, 1⟩, ⟨1, 1⟩] = some [⟨0, 1⟩, ⟨3, 5⟩] ∧
    (⟨0, 4⟩ : Extent).subMany [⟨1, 1⟩] = some [⟨0, 1⟩, ⟨2, 2⟩] := by
  refine ⟨?_, ?_, ?_⟩ <;> simp [subMany, List.mergeSort, List.merge, List.splitInTwo] <;> decide

end Extent

end Lsvd
