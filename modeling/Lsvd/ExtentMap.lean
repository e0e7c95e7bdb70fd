import Lsvd.SegmentCreator

/-!
# The extent map and the segment registry

Neither is among the sources; both are modelled from sections 3, 4.2 and 4.7 of the spec.
`ExtentMap` holds `PartialExtent`s in LBA order. `update` inserts one after clipping each entry it
overlaps to what `Sub` leaves of it, taking the clipped blocks off the owning segment's live
count; `updateBatch` inserts a flushed segment's locations in order, each over its whole extent
and counted live in the segment, then marks the segment installed. `resolve` is every entry that
meets a range, clamped to it. The registry `Segments` keeps the live counts, and `findDeleted`
lists the installed segments with none.

`Wf` is the spec's invariant: no two entries share a block, none is empty, each lies within its
full extent. `Accounts` ties the registry to the map: every entry's segment is registered, and a
registered segment's live count is the number of blocks the map still has in it. `clip_spec`
says what clipping leaves of one entry; from it `update` keeps both invariants (`Wf.update`,
`Accounts.update`) and `maps_update` says where each block maps afterwards. `updateBatch`
inherits all three by induction over the batch, and `findDeleted_unmapped` is the registry's
safety: no entry lies in a segment `findDeleted` returns.
-/

namespace Lsvd

/-- `PartialExtent`: a location and the part of its extent still live, Go's field `Partial`,
which the read path's logs call usable. -/
structure PartialExtent extends ExtentLocation where
  usable : Extent
deriving DecidableEq, Repr

/-- Modelled from the spec: `ExtentMap`, its entries in LBA order. -/
structure ExtentMap where
  entries : List PartialExtent := []
deriving DecidableEq, Repr

/-- Modelled from the spec: the segment registry `Segments`: the segments registered and not
yet purged, in order of creation, each one's live blocks, and whether its batch is installed. -/
structure Segments where
  segments : List SegmentId := []
  liveBlocks : SegmentId → ℤ := fun _ => 0
  installed : SegmentId → Bool := fun _ => false

namespace Segments

/-- Modelled from the spec: `Create(seg, stats)`, registering a flushed segment. -/
def create (reg : Segments) (seg : SegmentId) (stats : SegmentStats) : Segments :=
  { reg with
    segments := reg.segments ++ [seg]
    liveBlocks := fun s => if s = seg then stats.liveBlocks else reg.liveBlocks s }

/-- Modelled from the spec: `UpdateLiveBlocks(seg, delta)`. -/
def updateLiveBlocks (reg : Segments) (seg : SegmentId) (delta : ℤ) : Segments :=
  { reg with liveBlocks := fun s => if s = seg then reg.liveBlocks s + delta else reg.liveBlocks s }

/-- The end of a segment's first installation. -/
def setInstalled (reg : Segments) (seg : SegmentId) : Segments :=
  { reg with installed := fun s => s = seg || reg.installed s }

/-- A segment is dead when no block of it is live after its installation. -/
def dead (reg : Segments) (s : SegmentId) : Bool := reg.installed s && reg.liveBlocks s == 0

/-- Modelled from the spec: `FindDeleted()`, the registered segments that are dead. -/
def findDeleted (reg : Segments) : List SegmentId := reg.segments.filter reg.dead

/-- A purged segment is no longer registered. -/
def purge (reg : Segments) (seg : SegmentId) : Segments :=
  { reg with segments := reg.segments.filter (· ≠ seg) }

@[simp] theorem segments_updateLiveBlocks (reg : Segments) (seg : SegmentId) (delta : ℤ) :
    (reg.updateLiveBlocks seg delta).segments = reg.segments := rfl

end Segments

namespace ExtentMap

/-- What is left of entry `x` after an insertion over `e`: itself if they do not overlap, else
the pieces of `x.usable \ e`, each at `x`'s location. -/
def clip (e : Extent) (x : PartialExtent) : List PartialExtent :=
  if (x.usable.clamp e).isSome then
    ((x.usable.sub e).getD []).map fun p => { x with usable := p }
  else [x]

/-- The blocks of `x` an insertion over `e` takes away. -/
def clipped (e : Extent) (x : PartialExtent) : ℕ := ((x.usable.clamp e).map Extent.blocks).getD 0

/-- Modelled from the spec: `Update(pe.Partial, pe)`: every entry clipped by the new one, its
clipped blocks taken off its segment's live count (none for an entry it does not overlap), and
the new entry inserted in LBA order. -/
def update (m : ExtentMap) (reg : Segments) (pe : PartialExtent) : ExtentMap × Segments :=
  (⟨(m.entries.flatMap (clip pe.usable)).orderedInsert (fun a b => a.usable.lba ≤ b.usable.lba) pe⟩,
    m.entries.foldl (fun reg x => reg.updateLiveBlocks x.segment (-(clipped pe.usable x : ℤ))) reg)

/-- Modelled from the spec: `UpdateBatch(entries, seg, reg)`: each location in order, inserted
over its whole extent and counted live in `seg`; then `seg` is installed. -/
def updateBatch (m : ExtentMap) (entries : List ExtentLocation) (seg : SegmentId)
    (reg : Segments) : ExtentMap × Segments :=
  let r := entries.foldl (fun (acc : ExtentMap × Segments) e =>
    acc.1.update (acc.2.updateLiveBlocks seg e.extent.blocks) ⟨e, e.extent⟩) (m, reg)
  (r.1, r.2.setInstalled seg)

/-- Modelled from the spec: `Resolve(rng)`, the entries that meet `rng`, each clamped to it. -/
def resolve (m : ExtentMap) (rng : Extent) : List PartialExtent :=
  m.entries.filterMap fun x => (x.usable.clamp rng).map fun c => { x with usable := c }

/-- Block `l` maps to location `loc`: an entry holds it there. -/
def Maps (m : ExtentMap) (l : ℕ) (loc : ExtentLocation) : Prop :=
  ∃ x ∈ m.entries, l ∈ x.usable ∧ x.toExtentLocation = loc

/-- The location block `l` maps to, if any. -/
def find (m : ExtentMap) (l : ℕ) : Option ExtentLocation :=
  (m.entries.find? fun x => l ∈ x.usable).map (·.toExtentLocation)

/-- The spec's invariant: no two entries share a block, and each is non-empty and lies within
its full extent. -/
structure Wf (m : ExtentMap) : Prop where
  disjoint : m.entries.Pairwise fun x y => ∀ l ∈ x.usable, l ∉ y.usable
  pos : ∀ x ∈ m.entries, 0 < x.usable.blocks
  sub : ∀ x ∈ m.entries, x.usable ⊆ x.extent

/-- The blocks the map still has in segment `s`. -/
def liveIn (m : ExtentMap) (s : SegmentId) : ℤ :=
  (m.entries.map fun x => if x.segment = s then (x.usable.blocks : ℤ) else 0).sum

/-- The registry accounts for the map: every entry's segment is registered, and a registered
segment's live count is what the map has in it. -/
structure Accounts (m : ExtentMap) (reg : Segments) : Prop where
  registered : ∀ x ∈ m.entries, x.segment ∈ reg.segments
  live : ∀ s ∈ reg.segments, reg.liveBlocks s = m.liveIn s

theorem disjoint_symm {x y : PartialExtent} (h : ∀ l ∈ x.usable, l ∉ y.usable) :
    ∀ l ∈ y.usable, l ∉ x.usable := fun l hy hx => h l hx hy

/-! ## Clipping one entry -/

/-- What clipping leaves of a non-empty entry: non-empty pieces at its location, pairwise
disjoint, holding exactly its blocks outside `e`, and as many blocks as it had less those
clipped. -/
theorem clip_spec {e : Extent} (he : 0 < e.blocks) {x : PartialExtent}
    (hx : 0 < x.usable.blocks) :
    (∀ y ∈ clip e x, y.toExtentLocation = x.toExtentLocation ∧ 0 < y.usable.blocks) ∧
      (∀ l, (∃ y ∈ clip e x, l ∈ y.usable) ↔ l ∈ x.usable ∧ l ∉ e) ∧
      (clip e x).Pairwise (fun y z => ∀ l ∈ y.usable, l ∉ z.usable) ∧
      ((clip e x).map fun y => (y.usable.blocks : ℤ)).sum + clipped e x = x.usable.blocks := by
  unfold clip clipped
  split
  · rename_i hc
    obtain ⟨ps, hps⟩ := Option.isSome_iff_exists.mp (Extent.sub_isSome hx he)
    obtain ⟨hmem, hpos⟩ := Extent.mem_sub hps
    have hsum := Extent.sub_blocks hps
    simp only [hps, Option.getD_some, List.mem_map, forall_exists_index, and_imp,
      forall_apply_eq_imp_iff₂, List.pairwise_map, List.map_map]
    refine ⟨fun p hp => ⟨trivial, hpos p hp⟩, fun l => ?_, Extent.sub_pairwise hps, ?_⟩
    · rw [← hmem l]
      constructor
      · rintro ⟨_, ⟨p, hp, rfl⟩, hl⟩; exact ⟨p, hp, hl⟩
      · rintro ⟨p, hp, hl⟩; exact ⟨_, ⟨p, hp, rfl⟩, hl⟩
    · have : ((ps.map Extent.blocks).sum : ℤ) = (ps.map fun p => (p.blocks : ℤ)).sum := by
        rw [Nat.cast_list_sum, List.map_map]; rfl
      rw [← hsum, Nat.cast_add, this]
      rfl
  · rename_i hc
    have hdis := Extent.clamp_eq_none.mp (Option.not_isSome_iff_eq_none.mp hc)
    simp only [List.mem_singleton, forall_eq, List.pairwise_singleton, List.map_cons,
      List.map_nil, List.sum_cons, List.sum_nil, Option.not_isSome_iff_eq_none.mp hc,
      Option.map_none', Option.getD_none]
    refine ⟨⟨trivial, hx⟩, fun l => ⟨?_, ?_⟩, trivial, by simp⟩
    · rintro ⟨_, rfl, hl⟩; exact ⟨hl, hdis l hl⟩
    · rintro ⟨hl, -⟩; exact ⟨x, rfl, hl⟩

/-- Every piece clipping leaves holds only blocks of the entry. -/
theorem mem_of_mem_clip {e : Extent} (he : 0 < e.blocks) {x y : PartialExtent}
    (hx : 0 < x.usable.blocks) (hy : y ∈ clip e x) {l : ℕ} (hl : l ∈ y.usable) :
    l ∈ x.usable ∧ l ∉ e :=
  ((clip_spec he hx).2.1 l).mp ⟨y, hy, hl⟩

/-! ## One update -/

/-- The entries after an update: the new one, and the pieces clipping leaves of the others. -/
theorem mem_update {m : ExtentMap} {reg : Segments} {pe y : PartialExtent} :
    y ∈ (m.update reg pe).1.entries ↔ y = pe ∨ ∃ x ∈ m.entries, y ∈ clip pe.usable x := by
  simp [update, List.mem_orderedInsert]

/-- After an update a block maps to the new entry's location if the entry holds it, and else to
where it mapped before. -/
theorem maps_update {m : ExtentMap} (hm : m.Wf) (reg : Segments) {pe : PartialExtent}
    (hpe : 0 < pe.usable.blocks) (l : ℕ) (loc : ExtentLocation) :
    (m.update reg pe).1.Maps l loc ↔
      (l ∈ pe.usable ∧ pe.toExtentLocation = loc) ∨ (l ∉ pe.usable ∧ m.Maps l loc) := by
  simp only [Maps, mem_update]
  constructor
  · rintro ⟨y, rfl | ⟨x, hx, hy⟩, hl, rfl⟩
    · exact .inl ⟨hl, rfl⟩
    · obtain ⟨hlx, hle⟩ := mem_of_mem_clip hpe (hm.pos x hx) hy hl
      exact .inr ⟨hle, x, hx, hlx, (((clip_spec hpe (hm.pos x hx)).1 y hy).1).symm⟩
  · rintro (⟨hl, rfl⟩ | ⟨hl, x, hx, hlx, rfl⟩)
    · exact ⟨pe, .inl rfl, hl, rfl⟩
    · obtain ⟨y, hy, hly⟩ := ((clip_spec hpe (hm.pos x hx)).2.1 l).mpr ⟨hlx, hl⟩
      exact ⟨y, .inr ⟨x, hx, hy⟩, hly, ((clip_spec hpe (hm.pos x hx)).1 y hy).1⟩

/-- An update with a non-empty entry within its full extent keeps the map's invariant. -/
theorem Wf.update {m : ExtentMap} (hm : m.Wf) (reg : Segments) {pe : PartialExtent}
    (hpe : 0 < pe.usable.blocks) (hsub : pe.usable ⊆ pe.extent) : (m.update reg pe).1.Wf := by
  have hclip := fun x (hx : x ∈ m.entries) => clip_spec hpe (hm.pos x hx)
  refine ⟨?_, fun y hy => ?_, fun y hy => ?_⟩
  · rw [ExtentMap.update, ((List.perm_orderedInsert _ _ _).pairwise_iff disjoint_symm),
      List.pairwise_cons, List.pairwise_flatMap]
    refine ⟨fun y hy l hl hly => ?_, fun x hx => (hclip x hx).2.2.1, ?_⟩
    · obtain ⟨x, hx, hyx⟩ := List.mem_flatMap.mp hy
      exact (mem_of_mem_clip hpe (hm.pos x hx) hyx hly).2 hl
    · refine List.Pairwise.imp_of_mem (fun {x x'} hx hx' hd y hy z hz l hly hlz => ?_) hm.disjoint
      exact hd l (mem_of_mem_clip hpe (hm.pos x hx) hy hly).1
        (mem_of_mem_clip hpe (hm.pos x' hx') hz hlz).1
  · rcases mem_update.mp hy with rfl | ⟨x, hx, hyx⟩
    · exact hpe
    · exact ((hclip x hx).1 y hyx).2
  · rcases mem_update.mp hy with rfl | ⟨x, hx, hyx⟩
    · exact hsub
    · obtain ⟨hloc, hpos⟩ := (hclip x hx).1 y hyx
      have hext : y.extent = x.extent := congrArg ExtentHeader.extent
        (congrArg ExtentLocation.toExtentHeader hloc)
      exact hext ▸ Extent.subset_of_mem hpos fun l hl =>
        Extent.mem_of_subset (hm.sub x hx) (mem_of_mem_clip hpe (hm.pos x hx) hyx hl).1

/-! ## Live-block accounting -/

/-- The blocks clipped off the entries of segment `s`. -/
def clippedIn (m : ExtentMap) (e : Extent) (s : SegmentId) : ℤ :=
  (m.entries.map fun x => if x.segment = s then (clipped e x : ℤ) else 0).sum

/-- The decrements of an update take the clipped blocks off each segment. -/
theorem liveBlocks_foldl_clipped (e : Extent) (xs : List PartialExtent) (reg : Segments)
    (s : SegmentId) :
    (xs.foldl (fun reg x => reg.updateLiveBlocks x.segment (-(clipped e x : ℤ))) reg).liveBlocks s =
      reg.liveBlocks s - (xs.map fun x => if x.segment = s then (clipped e x : ℤ) else 0).sum := by
  induction xs generalizing reg with
  | nil => simp
  | cons x xs ih =>
    rw [List.foldl_cons, ih]
    by_cases h : x.segment = s
    · subst h
      simp only [Segments.updateLiveBlocks, if_true, List.map_cons, List.sum_cons]
      ring
    · simp only [Segments.updateLiveBlocks, if_neg (Ne.symm h), if_neg h, List.map_cons,
        List.sum_cons]
      ring

/-- The decrements of an update leave the registered segments as they were. -/
theorem segments_foldl_clipped (e : Extent) (xs : List PartialExtent) (reg : Segments) :
    (xs.foldl (fun reg x => reg.updateLiveBlocks x.segment (-(clipped e x : ℤ))) reg).segments =
      reg.segments := by
  induction xs generalizing reg with
  | nil => rfl
  | cons x xs ih => rw [List.foldl_cons, ih]; rfl

/-- The decrements of an update leave installation as it was. -/
theorem installed_foldl_clipped (e : Extent) (xs : List PartialExtent) (reg : Segments) :
    (xs.foldl (fun reg x => reg.updateLiveBlocks x.segment (-(clipped e x : ℤ))) reg).installed =
      reg.installed := by
  induction xs generalizing reg with
  | nil => rfl
  | cons x xs ih => rw [List.foldl_cons, ih]; rfl

/-- What an update leaves in segment `s`: what was there, less what it clipped, plus the new
entry if it is in `s`. -/
theorem liveIn_update {m : ExtentMap} (hm : m.Wf) (reg : Segments) {pe : PartialExtent}
    (hpe : 0 < pe.usable.blocks) (s : SegmentId) :
    (m.update reg pe).1.liveIn s = m.liveIn s - m.clippedIn pe.usable s +
      if pe.segment = s then (pe.usable.blocks : ℤ) else 0 := by
  have hperm := ((List.perm_orderedInsert (fun a b : PartialExtent => a.usable.lba ≤ b.usable.lba)
    pe (m.entries.flatMap (clip pe.usable))).map
      fun x => if x.segment = s then (x.usable.blocks : ℤ) else 0).sum_eq
  simp only [liveIn, update, clippedIn, hperm, List.map_cons, List.sum_cons]
  suffices h : ∀ xs : List PartialExtent, (∀ x ∈ xs, 0 < x.usable.blocks) →
      ((xs.flatMap (clip pe.usable)).map
        fun x => if x.segment = s then (x.usable.blocks : ℤ) else 0).sum =
      (xs.map fun x => if x.segment = s then (x.usable.blocks : ℤ) else 0).sum -
        (xs.map fun x => if x.segment = s then (clipped pe.usable x : ℤ) else 0).sum by
    rw [h _ hm.pos]; ring
  intro xs hxs
  induction xs with
  | nil => simp
  | cons x xs ih =>
    obtain ⟨hloc, -, -, hsum⟩ := clip_spec hpe (hxs x (List.mem_cons_self _ _))
    have hseg : ∀ y ∈ clip pe.usable x, y.segment = x.segment :=
      fun y hy => congrArg ExtentLocation.segment (hloc y hy).1
    have hpiece : ((clip pe.usable x).map
        fun y => if y.segment = s then (y.usable.blocks : ℤ) else 0).sum =
        if x.segment = s then ((clip pe.usable x).map fun y => (y.usable.blocks : ℤ)).sum else 0 := by
      split_ifs with hs
      · exact congrArg List.sum (List.map_congr_left fun y hy => by rw [if_pos (hseg y hy ▸ hs)])
      · exact (List.sum_eq_zero fun a ha => by
          obtain ⟨y, hy, rfl⟩ := List.mem_map.mp ha
          rw [if_neg (hseg y hy ▸ hs)])
    rw [List.flatMap_cons, List.map_append, List.sum_append, hpiece,
      ih fun y hy => hxs y (List.mem_cons_of_mem _ hy)]
    simp only [List.map_cons, List.sum_cons]
    split_ifs <;> linarith

/-- An update keeps the registry accounting for the map, once the new entry's blocks are
counted live in its segment. -/
theorem Accounts.update {m : ExtentMap} {reg : Segments} (ha : m.Accounts reg) (hm : m.Wf)
    {pe : PartialExtent} (hpe : 0 < pe.usable.blocks) (hreg : pe.segment ∈ reg.segments) :
    (m.update (reg.updateLiveBlocks pe.segment pe.usable.blocks) pe).1.Accounts
      (m.update (reg.updateLiveBlocks pe.segment pe.usable.blocks) pe).2 := by
  have hsegs : (m.update (reg.updateLiveBlocks pe.segment pe.usable.blocks) pe).2.segments =
      reg.segments := segments_foldl_clipped _ _ _
  refine ⟨fun y hy => ?_, fun s hs => ?_⟩
  · rw [hsegs]
    rcases mem_update.mp hy with rfl | ⟨x, hx, hyx⟩
    · exact hreg
    · have hloc := ((clip_spec hpe (hm.pos x hx)).1 y hyx).1
      rw [show y.segment = x.segment from congrArg ExtentLocation.segment hloc]
      exact ha.registered x hx
  · rw [hsegs] at hs
    rw [liveIn_update hm _ hpe, ExtentMap.update, liveBlocks_foldl_clipped, ← clippedIn,
      Segments.updateLiveBlocks]
    dsimp only
    rw [ha.live s hs]
    by_cases h : pe.segment = s
    · rw [if_pos h.symm, if_pos h]; ring
    · rw [if_neg (Ne.symm h), if_neg h]; ring

/-! ## A batch -/

/-- The location last in `es` whose extent holds block `l`. -/
def latestIn (es : List ExtentLocation) (l : ℕ) : Option ExtentLocation :=
  es.foldl (fun acc e => if l ∈ e.extent then some e else acc) none

/-- The invariants a batch of non-empty locations in segment `seg`, registered, keeps: the map's
own, and the registry's accounting for it. -/
theorem updateBatch_foldl_spec {seg : SegmentId} (es : List ExtentLocation)
    (hes : ∀ e ∈ es, e.segment = seg ∧ 0 < e.extent.blocks) {m : ExtentMap} {reg : Segments}
    (hm : m.Wf) (ha : m.Accounts reg) (hreg : seg ∈ reg.segments) :
    let r := es.foldl (fun (acc : ExtentMap × Segments) e =>
      acc.1.update (acc.2.updateLiveBlocks seg e.extent.blocks) ⟨e, e.extent⟩) (m, reg)
    r.1.Wf ∧ r.1.Accounts r.2 ∧ seg ∈ r.2.segments ∧
      ∀ l loc, r.1.Maps l loc ↔ latestIn es l = some loc ∨ (latestIn es l = none ∧ m.Maps l loc) := by
  induction es using List.reverseRecOn with
  | nil => exact ⟨hm, ha, hreg, fun l loc => by simp [latestIn]⟩
  | append_singleton es e ih =>
    obtain ⟨hm', ha', hreg', hmaps⟩ := ih fun e' he' => hes e' (List.mem_append_left _ he')
    obtain ⟨hseg, hpos⟩ := hes e (List.mem_append_right _ (List.mem_singleton_self _))
    simp only [List.foldl_append, List.foldl_cons, List.foldl_nil]
    set r := es.foldl (fun (acc : ExtentMap × Segments) e =>
      acc.1.update (acc.2.updateLiveBlocks seg e.extent.blocks) ⟨e, e.extent⟩) (m, reg)
    have hacc := Accounts.update ha' hm'
      (show 0 < (⟨e, e.extent⟩ : PartialExtent).usable.blocks from hpos) (hseg ▸ hreg')
    simp only [hseg] at hacc
    refine ⟨hm'.update _ hpos (Extent.subset_iff.mpr ⟨le_rfl, le_rfl⟩), hacc, ?_, fun l loc => ?_⟩
    · simpa [update, segments_foldl_clipped] using hreg'
    · rw [maps_update hm' _ hpos, hmaps]
      simp only [latestIn, List.foldl_append, List.foldl_cons, List.foldl_nil]
      by_cases hl : l ∈ e.extent <;> simp [hl]

/-- A batch of non-empty locations in a registered segment keeps the map's invariant and the
registry's accounting, and a block then maps to the last location of the batch holding it, or,
if none does, to where it mapped before. -/
theorem updateBatch_spec {seg : SegmentId} (es : List ExtentLocation)
    (hes : ∀ e ∈ es, e.segment = seg ∧ 0 < e.extent.blocks) {m : ExtentMap} {reg : Segments}
    (hm : m.Wf) (ha : m.Accounts reg) (hreg : seg ∈ reg.segments) :
    let r := m.updateBatch es seg reg
    r.1.Wf ∧ r.1.Accounts r.2 ∧
      ∀ l loc, r.1.Maps l loc ↔ latestIn es l = some loc ∨ (latestIn es l = none ∧ m.Maps l loc) := by
  obtain ⟨h1, h2, -, h4⟩ := updateBatch_foldl_spec es hes hm ha hreg
  exact ⟨h1, ⟨h2.registered, h2.live⟩, h4⟩

/-- A batch leaves the registered segments as they were. -/
theorem segments_updateBatch (m : ExtentMap) (es : List ExtentLocation) (seg : SegmentId)
    (reg : Segments) : (m.updateBatch es seg reg).2.segments = reg.segments :=
  List.foldlRecOn (motive := fun acc : ExtentMap × Segments => acc.2.segments = reg.segments) es _
    (m, reg) rfl fun _ h _ _ => (segments_foldl_clipped _ _ _).trans h

/-- A batch installs its own segment and no other. -/
theorem installed_updateBatch (m : ExtentMap) (es : List ExtentLocation) (seg : SegmentId)
    (reg : Segments) (s : SegmentId) :
    (m.updateBatch es seg reg).2.installed s = (decide (s = seg) || reg.installed s) := by
  have hfold := List.foldlRecOn
    (motive := fun acc : ExtentMap × Segments => acc.2.installed = reg.installed) es
    (fun (acc : ExtentMap × Segments) e =>
      acc.1.update (acc.2.updateLiveBlocks seg e.extent.blocks) ⟨e, e.extent⟩)
    (m, reg) rfl fun _ h _ _ => (installed_foldl_clipped _ _ _).trans h
  simp only [updateBatch, Segments.setInstalled, hfold]

/-- The location a block last maps to in a batch is one of the batch. -/
theorem latestIn_mem {es : List ExtentLocation} {l : ℕ} {loc : ExtentLocation}
    (h : latestIn es l = some loc) : loc ∈ es := by
  induction es using List.reverseRecOn with
  | nil => cases h
  | append_singleton es e ih =>
    simp only [latestIn, List.foldl_append, List.foldl_cons, List.foldl_nil] at h
    split_ifs at h
    · cases h; exact List.mem_append_right _ (List.mem_singleton_self _)
    · exact List.mem_append_left _ (ih h)

/-! ## Lookups -/

/-- A non-empty entry maps its first live block. -/
theorem maps_of_mem {m : ExtentMap} {x : PartialExtent} (hx : x ∈ m.entries)
    (hpos : 0 < x.usable.blocks) : m.Maps x.usable.lba x.toExtentLocation :=
  ⟨x, hx, Extent.mem_iff.mpr ⟨le_rfl, by omega⟩, rfl⟩

/-- In a well-formed map a block maps to at most one location. -/
theorem Wf.maps_unique {m : ExtentMap} (hm : m.Wf) {l : ℕ} {a b : ExtentLocation}
    (ha : m.Maps l a) (hb : m.Maps l b) : a = b := by
  obtain ⟨x, hx, hlx, rfl⟩ := ha
  obtain ⟨y, hy, hly, rfl⟩ := hb
  by_cases hxy : x = y
  · rw [hxy]
  · exact absurd hly (hm.disjoint.forall (fun _ _ h => disjoint_symm h) hx hy hxy l hlx)

/-- `find` is the location a block maps to. -/
theorem Wf.find_eq_some {m : ExtentMap} (hm : m.Wf) {l : ℕ} {loc : ExtentLocation} :
    m.find l = some loc ↔ m.Maps l loc := by
  constructor
  · intro h
    obtain ⟨x, hx, rfl⟩ := Option.map_eq_some'.mp h
    exact ⟨x, List.mem_of_find?_eq_some hx, by simpa using List.find?_some hx, rfl⟩
  · intro h
    obtain ⟨x, hx, hlx, rfl⟩ := h
    have hsome : (m.entries.find? fun x => decide (l ∈ x.usable)).isSome :=
      List.find?_isSome.mpr ⟨x, hx, by simpa using hlx⟩
    obtain ⟨y, hy⟩ := Option.isSome_iff_exists.mp hsome
    rw [find, hy, Option.map_some']
    exact congrArg some (hm.maps_unique ⟨y, List.mem_of_find?_eq_some hy,
      by simpa using List.find?_some hy, rfl⟩ ⟨x, hx, hlx, rfl⟩)

/-- `find` is `none` exactly when no entry holds the block. -/
theorem find_eq_none {m : ExtentMap} {l : ℕ} : m.find l = none ↔ ∀ loc, ¬m.Maps l loc := by
  simp only [find, Option.map_eq_none', List.find?_eq_none, decide_eq_true_eq, Maps, not_exists,
    not_and]
  exact ⟨fun h loc x hx hl => absurd hl (h x hx), fun h x hx hl => h _ x hx hl rfl⟩

/-- Two well-formed maps that map a block alike find it alike. -/
theorem find_congr {m m' : ExtentMap} (hm : m.Wf) (hm' : m'.Wf) {l : ℕ}
    (h : ∀ loc, m.Maps l loc ↔ m'.Maps l loc) : m.find l = m'.find l := by
  cases hf : m.find l with
  | none => exact (find_eq_none.mpr fun loc hl => find_eq_none.mp hf loc ((h loc).mpr hl)).symm
  | some loc => exact (hm'.find_eq_some.mpr ((h loc).mp (hm.find_eq_some.mp hf))).symm

/-- Each entry `Resolve` returns is an entry of the map clamped to the range; and an entry of
the map that holds a block of the range is returned clamped. -/
theorem mem_resolve {m : ExtentMap} {rng : Extent} {pe : PartialExtent} :
    pe ∈ m.resolve rng ↔ ∃ x ∈ m.entries, ∃ c, x.usable.clamp rng = some c ∧
      pe = { x with usable := c } := by
  simp only [resolve, List.mem_filterMap, Option.map_eq_some']
  constructor
  · rintro ⟨x, hx, c, hc, rfl⟩; exact ⟨x, hx, c, hc, rfl⟩
  · rintro ⟨x, hx, c, hc, rfl⟩; exact ⟨x, hx, c, hc, rfl⟩

/-! ## The registry's safety -/

/-- A dead segment holds no entry of a map the registry accounts for. -/
theorem findDeleted_unmapped {m : ExtentMap} {reg : Segments} (ha : m.Accounts reg) (hm : m.Wf)
    {s : SegmentId} (hs : s ∈ reg.findDeleted) : ∀ x ∈ m.entries, x.segment ≠ s := by
  obtain ⟨hreg, hdead⟩ := List.mem_filter.mp hs
  have hzero : m.liveIn s = 0 := by
    rw [← ha.live s hreg]
    simp only [Segments.dead, Bool.and_eq_true, beq_iff_eq] at hdead
    exact hdead.2
  intro x hx hxs
  have hle : ∀ y ∈ m.entries.map fun x => if x.segment = s then (x.usable.blocks : ℤ) else 0,
      0 ≤ y := by
    simp only [List.mem_map]
    rintro _ ⟨y, -, rfl⟩
    split_ifs <;> omega
  have hpos : (0 : ℤ) < if x.segment = s then (x.usable.blocks : ℤ) else 0 := by
    rw [if_pos hxs]; exact_mod_cast hm.pos x hx
  have := List.single_le_sum hle _ (List.mem_map_of_mem _ hx)
  rw [liveIn] at hzero
  omega

/-- A segment that no entry uses has no live blocks in the map. -/
theorem liveIn_eq_zero {m : ExtentMap} {s : SegmentId} (h : ∀ x ∈ m.entries, x.segment ≠ s) :
    m.liveIn s = 0 :=
  List.sum_eq_zero fun a ha => by
    obtain ⟨y, hy, rfl⟩ := List.mem_map.mp ha
    exact if_neg (h y hy)

/-- `FindDeleted` finds every installed segment of the registry that no entry uses: the converse
of `findDeleted_unmapped`. -/
theorem mem_findDeleted {m : ExtentMap} {reg : Segments} (ha : m.Accounts reg) {s : SegmentId}
    (hreg : s ∈ reg.segments) (hi : reg.installed s = true) (h : ∀ x ∈ m.entries, x.segment ≠ s) :
    s ∈ reg.findDeleted :=
  List.mem_filter.mpr ⟨hreg, by simp [Segments.dead, hi, ha.live s hreg, liveIn_eq_zero h]⟩

/-- Creating a fresh segment with no live blocks keeps the accounting. -/
theorem Accounts.create {m : ExtentMap} {reg : Segments} (ha : m.Accounts reg) {seg : SegmentId}
    (hfresh : ∀ x ∈ m.entries, x.segment ≠ seg) :
    m.Accounts (reg.create seg {}) := by
  refine ⟨fun x hx => List.mem_append_left _ (ha.registered x hx), fun s hs => ?_⟩
  simp only [Segments.create]
  split_ifs with h
  · exact h ▸ (liveIn_eq_zero hfresh).symm
  · exact ha.live s ((List.mem_append.mp hs).resolve_right (by simpa using h))

/-- Purging a segment that holds no entry keeps the accounting. -/
theorem Accounts.purge {m : ExtentMap} {reg : Segments} (ha : m.Accounts reg) {seg : SegmentId}
    (hseg : ∀ x ∈ m.entries, x.segment ≠ seg) : m.Accounts (reg.purge seg) :=
  ⟨fun x hx => List.mem_filter.mpr ⟨ha.registered x hx, by simpa using hseg x hx⟩,
    fun s hs => ha.live s (List.mem_filter.mp hs).1⟩

/-- Marking a segment installed keeps the accounting. -/
theorem Accounts.setInstalled {m : ExtentMap} {reg : Segments} (ha : m.Accounts reg)
    (seg : SegmentId) : m.Accounts (reg.setInstalled seg) :=
  ⟨ha.registered, ha.live⟩

end ExtentMap

end Lsvd
