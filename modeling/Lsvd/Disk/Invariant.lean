import Lsvd.Disk.Write

/-!
# The disk's invariant between operations

`Inv` is what holds of the disk whenever the single writer is between operations and every seal's
flush has run to its end: a current creator whose records are well formed, no previous creator, a
well-formed extent map that the registry accounts for, every location the map uses with its bytes
stored and decoding to its extent's, an extent cache that agrees with the store, a volume index
that can be listed, and every id in use below `curSeq`, the id the next flush uploads under.

Each operation of `Lsvd.Disk.Write` keeps it, and each lemma says what the operation does to
`view`, the layered lookup `ReadExtent` performs. A new current creator changes what it holds
(`Inv.view_eq`); a read succeeds with `view` and changes only the caches (`Inv.readExtent`); a seal
with its flush and cleanup changes nothing (`Inv.sealAndFlush`). The seal is the heart of it: the
batch installed is the creator's records at their locations in the uploaded segment, so a block
the creator held maps to the location of the latest record holding it (`latestIn_locations`),
whose stored bytes decode to what the record held (`storedBlock_locations`), and a block it did not
hold maps where it did (`Inv.install`). The cleanup then removes only dead segments, which no
entry uses (`Inv.removeDeleted`).
-/

namespace Lsvd

namespace Disk

/-- A location's bytes are stored: its segment holds them, inside the object, and they decode
without error to as many bytes as its full extent has. -/
def StoredOk (lz : Lz4) (objects : SegmentId → Option (List UInt8)) (loc : ExtentLocation) :
    Prop :=
  ∃ obj, objects loc.segment = some obj ∧ loc.offset < obj.length ∧
    loc.offset + loc.size ≤ obj.length ∧ ∃ cooked,
      decodeExtent lz loc (bytesAt obj loc.offset loc.size) = .ok cooked ∧
      cooked.length = loc.extent.blocks * BlockSize

/-- The invariant of a disk between the writer's operations, each seal's flush run to its end. -/
structure Inv (lz : Lz4) (d : Disk) : Prop where
  /-- A current creator, its records well formed and as the writes make them. -/
  cur : ∃ oc, d.curOC = some oc ∧ oc.Wf lz ∧ oc.RecordsOk
  /-- No creator waits in the previous cache. -/
  prev : d.prevCache = none
  map : d.lba2pba.Wf
  accounts : d.lba2pba.Accounts d.s
  /-- Every location the map uses with bytes has them stored. -/
  stored : ∀ l loc, d.lba2pba.Maps l loc → loc.size ≠ 0 → StoredOk lz d.objects loc
  cache : CacheOk d d.extentCache
  /-- Every id in use is below the id the next flush uploads under. -/
  fresh : ∀ s, (d.objects s).isSome → s < d.curSeq
  regFresh : ∀ s ∈ d.s.segments, s < d.curSeq
  cacheFresh : ∀ loc, (d.extentCache.readExtent loc).isSome → loc.segment < d.curSeq
  /-- The volume's object index can be listed. -/
  index : (listSegments d.index).isSome

/-- What the extent map and the store hold at block `l`: zeros where the map has nothing. -/
def storeView (lz : Lz4) (d : Disk) (l : ℕ) : Block :=
  match d.lba2pba.find l with
  | some loc => storedBlock lz d.objects loc l
  | none => emptyBlock

/-- `view` is what the caches hold, else what the map and the store hold. -/
theorem view_eq (lz : Lz4) (d : Disk) (l : ℕ) :
    d.view lz l = (d.cacheLookup lz l).getD (d.storeView lz l) := by
  unfold view storeView
  cases d.cacheLookup lz l <;> rfl

/-- With no previous creator, the caches are the current creator. -/
theorem cacheLookup_of_prev {lz : Lz4} {d : Disk} {oc : SegmentCreator}
    (hcur : d.curOC = some oc) (hprev : d.prevCache = none) (l : ℕ) :
    d.cacheLookup lz l = oc.lookup lz l := by
  simp only [cacheLookup, hcur, hprev, Option.some_bind, Option.none_bind]
  cases oc.lookup lz l <;> rfl

/-- A stored block reads only the location's segment. -/
theorem storedBlock_congr {lz : Lz4} {objects objects' : SegmentId → Option (List UInt8)}
    {loc : ExtentLocation} (h : objects' loc.segment = objects loc.segment) (l : ℕ) :
    storedBlock lz objects' loc l = storedBlock lz objects loc l := by
  simp only [storedBlock, h]

/-- `StoredOk` reads only the location's segment. -/
theorem StoredOk.congr {lz : Lz4} {objects objects' : SegmentId → Option (List UInt8)}
    {loc : ExtentLocation} (h : StoredOk lz objects loc)
    (heq : objects' loc.segment = objects loc.segment) : StoredOk lz objects' loc := by
  rw [StoredOk, heq]
  exact h

/-- Two disks whose maps map block `l` alike, with the same objects where they map it, hold the
same block there. -/
theorem storeView_congr {lz : Lz4} {d d' : Disk} {l : ℕ}
    (hobj : ∀ loc, d.lba2pba.Maps l loc → d'.objects loc.segment = d.objects loc.segment)
    (hm : d.lba2pba.Wf) (hm' : d'.lba2pba.Wf)
    (hmaps : ∀ loc, d'.lba2pba.Maps l loc ↔ d.lba2pba.Maps l loc) :
    d'.storeView lz l = d.storeView lz l := by
  unfold storeView
  rw [ExtentMap.find_congr hm' hm hmaps]
  cases hf : d.lba2pba.find l with
  | none => rfl
  | some loc => exact storedBlock_congr (hobj loc (hm.find_eq_some.mp hf)) l

section

variable {lz : Lz4} {d : Disk}

/-- Every location the map uses is in a segment below `curSeq`. -/
theorem Inv.maps_lt (h : Inv lz d) {l : ℕ} {loc : ExtentLocation}
    (hl : d.lba2pba.Maps l loc) : loc.segment < d.curSeq := by
  obtain ⟨x, hx, -, rfl⟩ := hl
  exact h.regFresh _ (h.accounts.registered x hx)

/-- Under the invariant, `view` is what the current creator holds, else what the map and the
store hold. -/
theorem Inv.view_eq (h : Inv lz d) {oc : SegmentCreator} (hcur : d.curOC = some oc) (l : ℕ) :
    d.view lz l = (oc.lookup lz l).getD (d.storeView lz l) := by
  rw [Disk.view_eq, cacheLookup_of_prev hcur h.prev]

/-- The invariant gives what a read relies on, reading the stored objects. -/
theorem Inv.readContract (h : Inv lz d) : ReadContract lz (s3Reads d.objects) d := by
  obtain ⟨oc, hcur, hwf, -⟩ := h.cur
  refine ⟨⟨oc, hcur, hwf⟩, fun p hp => by simp [h.prev] at hp, h.map, fun x hx hsz => ?_, h.cache⟩
  obtain ⟨obj, hobj, hoff, hend, cooked, hdec, hlen⟩ :=
    h.stored _ _ (ExtentMap.maps_of_mem hx (h.map.pos x hx)) hsz
  have hraw : (bytesAt obj x.offset x.size).length = x.size := by
    rw [length_bytesAt]
    omega
  exact ⟨_, by simp [storedBytes, hobj], by simp [s3Reads, hobj],
    by simp [s3Reads, hobj, hoff], hraw, cooked, hdec, hlen⟩

/-- A new current creator with well-formed records keeps the invariant. -/
theorem Inv.setCur (h : Inv lz d) {oc : SegmentCreator} (hwf : oc.Wf lz) (hrec : oc.RecordsOk) :
    Inv lz { d with curOC := some oc } :=
  { h with cur := ⟨oc, rfl, hwf, hrec⟩ }

/-- A read under the invariant succeeds with the blocks `view` gives, and changes only the
caches, keeping the invariant. -/
theorem Inv.readExtent (h : Inv lz d) (rng : Extent) :
    ∃ data c o, d.readExtent lz (s3Reads d.objects) rng =
        .ok (data, { d with extentCache := c, openSegments := o }) ∧ data.extent = rng ∧
      (∀ l ∈ rng, data.block l = d.view lz l) ∧
      Inv lz { d with extentCache := c, openSegments := o } := by
  obtain ⟨data, c, o, hread, hext, -, hblock, hc, hgrow⟩ := readExtent_spec h.readContract rng
  refine ⟨data, c, o, hread, hext, hblock,
    { h with cache := hc.cache, cacheFresh := fun loc hl => ?_ }⟩
  rcases hgrow loc hl with hl | hl
  · exact h.cacheFresh loc hl
  · exact h.fresh _ hl

end

/-! ## The batch a flush installs -/

/-- The location `Flush` returns for record `r` of the creator, in segment `seg`. -/
theorem latestIn_locations (oc : SegmentCreator) (seg : SegmentId) (l : ℕ) :
    ExtentMap.latestIn (oc.locations seg) l = (SegmentCreator.latestRecord oc.extents l).map
      fun r => ⟨{ r with offset := oc.dataBegin + r.offset }, seg⟩ := by
  rw [ExtentMap.latestIn, SegmentCreator.locations, List.foldl_map, SegmentCreator.latestRecord,
    ← Option.map_none', List.foldl_hom]
  intro acc r
  split_ifs <;> rfl

/-- A record with bytes, uploaded, decodes from them to what it held. -/
theorem decodeExtent_of_recordBytes {lz : Lz4} {oc : SegmentCreator} {r : ExtentHeader}
    (hr : r ∈ oc.extents) (hrec : oc.RecordsOk) (hsz : r.size ≠ 0) {bytes : List UInt8}
    (hb : oc.recordBytes lz r = some bytes) (hlen : bytes.length = r.extent.blocks * BlockSize)
    (seg : SegmentId) :
    decodeExtent lz ⟨{ r with offset := oc.dataBegin + r.offset }, seg⟩
      (bytesAt oc.body r.offset r.size) = .ok bytes := by
  obtain ⟨-, ⟨-, h0⟩ | ⟨hflags, -, hraw⟩⟩ := hrec r hr
  · exact absurd h0 hsz
  have hne : r.flags ≠ Empty := by rcases hflags with h | h <;> rw [h] <;> decide
  rw [SegmentCreator.recordBytes, if_neg hne] at hb
  rcases hflags with h | h
  · simp only [decodeBlock, h, Uncompressed, if_true, Option.some.injEq] at hb
    simp [decodeExtent, h, hb, Uncompressed, Compressed]
  · simp only [decodeBlock, h, Compressed, if_true, if_neg (show (1 : UInt8) ≠ 0 by decide)] at hb
    simp [decodeExtent, h, hb, Compressed, hraw, hlen]

section

variable {lz : Lz4} {oc : SegmentCreator} {r : ExtentHeader}
  {objects : SegmentId → Option (List UInt8)} {seg : SegmentId}

/-- A record with bytes, once the segment is uploaded, has its bytes stored. -/
theorem storedOk_locations (hoc : oc.Wf lz) (hrec : oc.RecordsOk) (hr : r ∈ oc.extents)
    (hsz : r.size ≠ 0) (hobj : objects seg = some oc.segmentBytes) :
    StoredOk lz objects ⟨{ r with offset := oc.dataBegin + r.offset }, seg⟩ := by
  obtain ⟨hin, bytes, hb, hlen⟩ := hoc r hr
  refine ⟨_, hobj, ?_, ?_, bytes, ?_, hlen⟩
  · simp only [SegmentCreator.length_segmentBytes]; omega
  · simp only [SegmentCreator.length_segmentBytes]; omega
  · rw [SegmentCreator.bytesAt_segmentBytes]
    exact decodeExtent_of_recordBytes hr hrec hsz hb hlen seg

/-- Once the segment is uploaded, a record's location holds what the record held. -/
theorem storedBlock_locations (hoc : oc.Wf lz) (hrec : oc.RecordsOk) (hr : r ∈ oc.extents)
    (hobj : objects seg = some oc.segmentBytes) {bytes : List UInt8}
    (hb : oc.recordBytes lz r = some bytes) {l : ℕ} (hl : l ∈ r.extent) :
    storedBlock lz objects ⟨{ r with offset := oc.dataBegin + r.offset }, seg⟩ l =
      (⟨r.extent, bytes⟩ : RangeData).block l := by
  by_cases hsz : r.size = 0
  · -- An `Empty` record: zeros either way.
    obtain ⟨-, ⟨hE, -⟩ | ⟨-, h0, -⟩⟩ := hrec r hr
    · rw [SegmentCreator.recordBytes, if_pos hE, Option.some.injEq] at hb
      subst hb
      rw [storedBlock, if_pos hsz]
      exact (RangeData.block_new hl).symm
    · omega
  · obtain ⟨-, bytes', hb', hlen⟩ := hoc r hr
    rw [hb, Option.some.injEq] at hb'
    subst hb'
    have hdec := decodeExtent_of_recordBytes hr hrec hsz hb hlen seg
    rw [← SegmentCreator.bytesAt_segmentBytes] at hdec
    simp only [storedBlock, hsz, if_false, hobj, hdec]

/-- Installing the batch of a creator whose segment is uploaded and registered makes the map and
the store show what the creator showed over them: its blocks from its segment, the others from
where they came. -/
theorem storeView_install (d : Disk) (hm : d.lba2pba.Wf) (hacc : d.lba2pba.Accounts d.s)
    (hreg : seg ∈ d.s.segments) (hoc : oc.Wf lz) (hrec : oc.RecordsOk)
    (hobj : d.objects seg = some oc.segmentBytes) (l : ℕ) :
    (d.install (oc.locations seg) seg).storeView lz l = (oc.lookup lz l).getD (d.storeView lz l) := by
  have hes : ∀ e ∈ oc.locations seg, e.segment = seg ∧ 0 < e.extent.blocks := by
    intro e he
    obtain ⟨r, hr, rfl⟩ := List.mem_map.mp he
    exact ⟨rfl, (hrec r hr).1⟩
  obtain ⟨hwf, -, hmaps⟩ := ExtentMap.updateBatch_spec _ hes hm hacc hreg
  rw [SegmentCreator.lookup, SegmentCreator.lookupIn_eq_latestRecord]
  cases hlr : SegmentCreator.latestRecord oc.extents l with
  | none =>
    exact storeView_congr (fun _ _ => rfl) hm hwf
      fun loc => (hmaps l loc).trans (by rw [latestIn_locations, hlr]; simp)
  | some r =>
    obtain ⟨hr, hl⟩ := SegmentCreator.latestRecord_mem hlr
    obtain ⟨-, bytes, hb, -⟩ := hoc r hr
    have hfind : (d.install (oc.locations seg) seg).lba2pba.find l =
        some ⟨{ r with offset := oc.dataBegin + r.offset }, seg⟩ :=
      hwf.find_eq_some.mpr ((hmaps l _).mpr (.inl (by rw [latestIn_locations, hlr]; rfl)))
    rw [Option.some_bind, hb, Option.map_some', Option.getD_some, storeView, hfind]
    exact storedBlock_locations hoc hrec hr hobj hb hl

end

section

variable {lz : Lz4} {d : Disk} {oc : SegmentCreator} {seq : SegmentId} {idx : List UInt8}

/-- The goroutine's upload, registration, install and clearing of the previous cache keep the
invariant under the new id, and keep `view`: the blocks the sealed creator held now come from its
segment, the others from where they came. -/
theorem Inv.install (h : Inv lz d) (hcur : d.curOC = some oc) (hlt : d.curSeq < seq)
    (hidx : appendToObjects d.index d.curSeq = some idx) :
    let d₁ := ({ d with
      curOC := some {}, curSeq := seq, prevCache := some oc
      objects := fun s => if s = d.curSeq then some oc.segmentBytes else d.objects s
      index := some idx } : Disk).create d.curSeq {}
    let d' := (d₁.install (oc.locations d.curSeq) d.curSeq).clearPrev
    Inv lz d' ∧ ∀ l, d'.view lz l = d.view lz l := by
  intro d₁ d'
  obtain ⟨oc', hcur', hoc, hrec⟩ := h.cur
  rw [hcur, Option.some.injEq] at hcur'
  subst hcur'
  -- The batch: the creator's records at their locations in segment `d.curSeq`.
  have hes : ∀ e ∈ oc.locations d.curSeq, e.segment = d.curSeq ∧ 0 < e.extent.blocks := by
    intro e he
    obtain ⟨r, hr, rfl⟩ := List.mem_map.mp he
    exact ⟨rfl, (hrec r hr).1⟩
  have hacc0 := h.accounts.create fun x hx => (h.regFresh _ (h.accounts.registered x hx)).ne
  obtain ⟨hwf, hacc, hmaps⟩ := ExtentMap.updateBatch_spec _ hes h.map hacc0
    (List.mem_append_right _ (List.mem_singleton_self _))
  have hsegs := ExtentMap.segments_updateBatch d.lba2pba (oc.locations d.curSeq) d.curSeq
    (d.s.create d.curSeq {})
  have hobj : d'.objects d.curSeq = some oc.segmentBytes := if_pos rfl
  -- An old location is in an older segment, whose object the upload leaves alone.
  have hold : ∀ l loc, d.lba2pba.Maps l loc → d'.objects loc.segment = d.objects loc.segment :=
    fun l loc hl => if_neg (h.maps_lt hl).ne
  refine ⟨⟨⟨{}, rfl, fun _ h => absurd h (List.not_mem_nil _),
      fun _ h => absurd h (List.not_mem_nil _)⟩, rfl, hwf, hacc, fun l loc hl hsz => ?_,
      fun loc raw hloc obj hobj' => ?_, fun s hs => ?_, fun s hs => ?_,
      fun loc hl => (h.cacheFresh loc hl).trans hlt, listSegments_appendToObjects hidx⟩,
    fun l => ?_⟩
  · -- stored
    rcases (hmaps l loc).mp hl with hnew | ⟨-, hl⟩
    · rw [latestIn_locations] at hnew
      obtain ⟨r, hr, rfl⟩ := Option.map_eq_some'.mp hnew
      exact storedOk_locations hoc hrec (SegmentCreator.latestRecord_mem hr).1 hsz hobj
    · exact (h.stored l loc hl hsz).congr (hold l loc hl)
  · -- cache
    have hne := (h.cacheFresh loc (Option.isSome_iff_exists.mpr ⟨raw, hloc⟩)).ne
    exact h.cache loc raw hloc obj ((if_neg hne).symm.trans hobj')
  · -- fresh
    change (if s = d.curSeq then some oc.segmentBytes else d.objects s).isSome at hs
    split_ifs at hs with hsc
    · exact hsc ▸ hlt
    · exact (h.fresh s hs).trans hlt
  · -- regFresh
    change s ∈ (d.lba2pba.updateBatch (oc.locations d.curSeq) d.curSeq
      (d.s.create d.curSeq {})).2.segments at hs
    rw [hsegs] at hs
    rcases List.mem_append.mp hs with hs | hs
    · exact (h.regFresh s hs).trans hlt
    · exact List.mem_singleton.mp hs ▸ hlt
  · -- view
    have hempty : ({} : SegmentCreator).lookup lz l = none := rfl
    rw [Disk.view_eq, cacheLookup_of_prev (show d'.curOC = some {} from rfl) rfl, hempty,
      Option.getD_none, h.view_eq hcur]
    exact (storeView_install d₁ h.map hacc0 (List.mem_append_right _ (List.mem_singleton_self _))
      hoc hrec hobj l).trans (congrArg _ (storeView_congr (hold l) h.map h.map fun _ => Iff.rfl))

/-! ## The cleanup -/

/-- Removing a segment that no entry uses keeps the invariant and `view`. -/
theorem Inv.removeSegment (h : Inv lz d) {i : SegmentId}
    (hi : ∀ x ∈ d.lba2pba.entries, x.segment ≠ i) (hr : removeSegmentFromVolume d.index i = some idx) :
    Inv lz (removeSegmentIfPossible { d with index := some idx } i) ∧
      ∀ l, (removeSegmentIfPossible { d with index := some idx } i).view lz l = d.view lz l := by
  have hold : ∀ l loc, d.lba2pba.Maps l loc →
      (removeSegmentIfPossible { d with index := some idx } i).objects loc.segment =
        d.objects loc.segment := by
    rintro l _ ⟨x, hx, -, rfl⟩
    exact if_neg (hi x hx)
  refine ⟨⟨h.cur, h.prev, h.map, h.accounts.purge hi,
      fun l loc hl hsz => (h.stored l loc hl hsz).congr (hold l loc hl),
      fun loc raw hloc obj hobj => ?_, fun s hs => ?_,
      fun s hs => h.regFresh s (List.mem_filter.mp hs).1, h.cacheFresh,
      listSegments_removeSegmentFromVolume hr⟩, fun l => ?_⟩
  · -- cache
    change (if loc.segment = i then none else d.objects loc.segment) = some obj at hobj
    by_cases hseg : loc.segment = i
    · rw [if_pos hseg] at hobj; cases hobj
    · rw [if_neg hseg] at hobj; exact h.cache loc raw hloc obj hobj
  · -- fresh
    change (if s = i then none else d.objects s).isSome at hs
    by_cases hsi : s = i
    · rw [if_pos hsi] at hs; cases hs
    · rw [if_neg hsi] at hs; exact h.fresh s hs
  · -- view
    have hsv : (removeSegmentIfPossible { d with index := some idx } i).storeView lz l =
        d.storeView lz l := storeView_congr (hold l) h.map h.map fun _ => Iff.rfl
    rw [Disk.view_eq, Disk.view_eq, hsv]
    rfl

/-- Removing segments that no entry uses keeps the invariant, `curSeq` and `view`, whether or not
an update of the volume's index fails on the way. -/
theorem Inv.removeDeleted (h : Inv lz d) (is : List SegmentId)
    (his : ∀ i ∈ is, ∀ x ∈ d.lba2pba.entries, x.segment ≠ i) :
    Inv lz (Disk.removeDeleted d is).1 ∧ (Disk.removeDeleted d is).1.curSeq = d.curSeq ∧
      ∀ l, (Disk.removeDeleted d is).1.view lz l = d.view lz l := by
  induction is generalizing d with
  | nil => exact ⟨h, rfl, fun _ => rfl⟩
  | cons i is ih =>
    cases hr : removeSegmentFromVolume d.index i with
    | none =>
      rw [Disk.removeDeleted, hr]
      exact ⟨h, rfl, fun _ => rfl⟩
    | some idx =>
      obtain ⟨h', hview⟩ := h.removeSegment (his i (List.mem_cons_self _ _)) hr
      obtain ⟨h'', hseq, hview'⟩ := ih h' fun j hj => his j (List.mem_cons_of_mem _ hj)
      rw [Disk.removeDeleted, hr]
      exact ⟨h'', hseq, fun l => (hview' l).trans (hview l)⟩

/-- `cleanupDeletedSegments` keeps the invariant, `curSeq` and `view`: the dead segments it
removes hold no entry. -/
theorem Inv.cleanupDeletedSegments (h : Inv lz d) :
    Inv lz (cleanupDeletedSegments d).1 ∧ (cleanupDeletedSegments d).1.curSeq = d.curSeq ∧
      ∀ l, (cleanupDeletedSegments d).1.view lz l = d.view lz l :=
  h.removeDeleted _ fun _ hi => ExtentMap.findDeleted_unmapped h.accounts h.map hi

/-! ## The seal -/

/-- A seal under the invariant, with the next id drawn above `curSeq` and its creator made, runs
its flush to the end, keeps the invariant and `view`, and moves `curSeq` to the new id. -/
theorem Inv.sealAndFlush (h : Inv lz d) {env : WriteEnv} (hseq : env.nextSeq d.curSeq = some seq)
    (hlt : d.curSeq < seq) (hok : env.createOk seq = true) :
    ∃ d', Disk.sealAndFlush env d = some (d', .ok ()) ∧ Inv lz d' ∧ d'.curSeq = seq ∧
      ∀ l, d'.view lz l = d.view lz l := by
  obtain ⟨oc, hcur, -, -⟩ := h.cur
  obtain ⟨L, hL⟩ := Option.isSome_iff_exists.mp h.index
  have hidx : appendToObjects d.index d.curSeq = some (appendToObjectsUpload L d.curSeq) := by
    simp [appendToObjects, hL]
  obtain ⟨hinv, hview⟩ := h.install hcur hlt hidx
  obtain ⟨hinv', hseq', hview'⟩ := hinv.cleanupDeletedSegments
  refine ⟨_, ?_, hinv', hseq', fun l => (hview' l).trans (hview l)⟩
  simp only [Disk.sealAndFlush, closeSegmentAsync_ok hseq hok h.prev, hcur, flushSegment,
    flushUpload, hidx, Option.map_some']
  rfl

end

end Disk

end Lsvd
