import Lsvd.Progress
import Lsvd.Snapshot

/-!
# What the object store holds after a run

`cleanupDeletedSegments` is how `disk.go` collects garbage: after each install it lists the
registered segments that are installed and have no live block (`FindDeleted`), removes each from
the volume's index and deletes its object. `Tidy` is what it maintains between operations: the
object store, the registry, the extent map and the index agree. A segment is stored exactly when
it is registered, each stored segment is installed and some entry of the map points into it, and
every entry points into a stored segment. So after every run of the sequential disk the store
holds the segments the map uses and no other: no garbage is left, and no entry dangles
(`run_stores_exactly_mapped_segments`). The index lists every stored segment, and besides them
only the zero ids `RemoveSegmentFromVolume` leaves in the slots it empties
(`run_index_lists_stored_segments`, from `removeDeleted_index`).

`removeDeleted_spec` says what the cleanup's loop does when the volume's index can be listed: the
listed segments' objects deleted and their ids purged, nothing else changed. Under the registry's
accounting `FindDeleted` lists exactly the installed segments no entry uses
(`ExtentMap.findDeleted_unmapped`, `ExtentMap.mem_findDeleted`), so a cleanup after an install
that kept the store and the registry in step and every entry's segment stored leaves the store
tidy (`tidy_cleanupDeletedSegments`). The flush goroutine keeps both (`Tidy.flushSegment`): its
new entries all point into the segment it has just uploaded, registered and installed. A failed
seal, the writes, `ZeroBlocks` and the reads touch neither the store, the registry nor the map,
and the run lemma follows the refinement's (`Tidy.run`).

`Close` seals the current segment and waits for its flush. A seal that succeeds leaves an empty
current creator (`flushSegment_curOC`) and, under the invariant, no previous one, so what the
disk shows is what the extent map and the stored segments show. By the refinement that is the
device after the run (`close_after_run_durable`): at `Close` no write is held only in memory.

Between operations the current creator holds fewer than `FlushThreshHold` bytes of body, in every
run and whatever the writer's environment does (`run_body_below_threshold`): `WriteExtent` and
`WriteExtents` end with the threshold check, a seal leaves an empty creator or, when
`newSegmentCreator` fails, none; `ZeroBlocks` has no check but adds no body bytes; and a read
changes only the caches (`readExtent_caches`).

Over the interleavings of `Lsvd.Concurrency` the same holds of a `Close` from any state where the
writer is between operations, no goroutine still in `Flush` has a done `ctx`, and the close's own
`ctx` is not done (`run_close_stores_acked`). The goroutines can run to their ends
(`Sys.drains`), which leaves the previous cache empty, so the close's `SetWhenClear` goes through;
its goroutine run to its end leaves an empty current creator and no previous one, so the layers,
which show the acknowledged writes (`Sys.Coherent`), are the map and the store alone
(`Sys.view_of_closed`).

With the flush goroutines interleaved, the store can hold garbage for a while: a segment uploaded
and not yet installed, or one an install has made dead and a cleanup has still to remove. Whenever
no goroutine is in flight there is none (`run_idle_stores_exactly_mapped`). `Sys.Collects` says
who will collect each stored segment the map does not use: the goroutine that uploaded it and has
still to install it, or a goroutine whose cleanup is still to come to it. An install makes dead
only segments its own `FindDeleted` will list, and a cleanup removes a segment only when no entry
uses it, so every goroutine step keeps this (`Sys.Collects.flushStep`); with no goroutine left,
every stored segment is one the map uses.
-/

namespace Lsvd

namespace Disk

/-- What the cleanup's loop does on a disk whose volume index can be listed: the objects of the
segments `is` deleted and their ids dropped from the registry; the installed marks and the map
left alone. -/
theorem removeDeleted_spec {d : Disk} (hidx : (listSegments d.index).isSome)
    (is : List SegmentId) :
    (∀ s, (removeDeleted d is).1.objects s = if s ∈ is then none else d.objects s) ∧
      (∀ s, s ∈ (removeDeleted d is).1.s.segments ↔ s ∈ d.s.segments ∧ s ∉ is) ∧
      (removeDeleted d is).1.s.installed = d.s.installed ∧
      (removeDeleted d is).1.lba2pba = d.lba2pba := by
  induction is generalizing d with
  | nil => simp [removeDeleted]
  | cons i is ih =>
    obtain ⟨L, hL⟩ := Option.isSome_iff_exists.mp hidx
    have hr : removeSegmentFromVolume d.index i = some (removeSegmentFromVolumeUpload L i) := by
      simp [removeSegmentFromVolume, hL]
    obtain ⟨hobj, hseg, hinst, hmap⟩ := @ih (removeSegmentIfPossible { d with index := some _ } i)
      (listSegments_removeSegmentFromVolume hr)
    simp only [removeDeleted, hr]
    refine ⟨fun s => ?_, fun s => ?_, hinst, hmap⟩
    · rw [hobj]
      by_cases hs : s = i <;> simp [removeSegmentIfPossible, hs]
    · rw [hseg]
      simp only [removeSegmentIfPossible, Segments.purge, List.mem_filter, List.mem_cons,
        decide_eq_true_eq, not_or]
      tauto

/-- What the cleanup's loop does to the volume's index, listed as `L` before: it lists the ids of
`L` that were not removed, and besides them only the zero ids `RemoveSegmentFromVolume` leaves in
the slots it empties. -/
theorem removeDeleted_index {d : Disk} {L : List SegmentId} (hL : listSegments d.index = some L)
    (is : List SegmentId) :
    ∃ L', listSegments (removeDeleted d is).1.index = some L' ∧
      ∀ s, (s ∈ L ∧ s ∉ is → s ∈ L') ∧ (s ∈ L' → s = 0 ∨ s ∈ L ∧ s ∉ is) := by
  induction is generalizing d L with
  | nil => exact ⟨L, hL, fun s => ⟨fun h => h.1, fun h => .inr ⟨h, List.not_mem_nil _⟩⟩⟩
  | cons i is ih =>
    have hr : removeSegmentFromVolume d.index i = some (removeSegmentFromVolumeUpload L i) := by
      simp [removeSegmentFromVolume, hL]
    obtain ⟨L', hL', hmem⟩ := @ih
      (removeSegmentIfPossible { d with index := some (removeSegmentFromVolumeUpload L i) } i)
      (deleteFuncInPlace L (· = i))
      (by simp [removeSegmentIfPossible, listSegments, removeSegmentFromVolumeUpload,
        readSegments_encodeSegments])
    simp only [removeDeleted, hr]
    refine ⟨L', hL', fun s => ⟨fun hs => (hmem s).1 ?_, fun hs => ?_⟩⟩
    · simp only [List.mem_cons, not_or] at hs
      simp [deleteFuncInPlace, hs]
    · rcases (hmem s).2 hs with h0 | ⟨hs', his⟩
      · exact .inl h0
      · simp only [deleteFuncInPlace, List.mem_append, List.mem_filter, List.mem_replicate,
          decide_eq_true_eq, Bool.not_eq_true', decide_eq_false_iff_not] at hs'
        rcases hs' with ⟨hsL, hsi⟩ | ⟨-, h0⟩
        · exact .inr ⟨hsL, by simp [hsi, his]⟩
        · exact .inl h0

/-- The cleanup's loop leaves the creators alone. -/
theorem removeDeleted_curOC (d : Disk) (is : List SegmentId) :
    (removeDeleted d is).1.curOC = d.curOC := by
  induction is generalizing d with
  | nil => rfl
  | cons i is ih =>
    simp only [removeDeleted]
    split
    · rfl
    · exact ih _

/-- The flush goroutine leaves the current creator alone. -/
theorem flushSegment_curOC {D D' : Disk} {oc : SegmentCreator} {segId : SegmentId}
    (hf : flushSegment D oc segId = some D') : D'.curOC = D.curOC := by
  simp only [Disk.flushSegment, flushUpload, Option.map_map] at hf
  obtain ⟨_, -, rfl⟩ := Option.map_eq_some'.mp hf
  exact removeDeleted_curOC _ _

/-- The volume's index, listed as `L`, lists every stored segment, and besides them only zero
ids. -/
def ListsStored (objects : SegmentId → Option (List UInt8)) (L : List SegmentId) : Prop :=
  ∀ s, ((objects s).isSome → s ∈ L) ∧ (s ∈ L → s = 0 ∨ (objects s).isSome)

/-- The object store, the registry, the extent map and the volume's index agree: a segment is
stored exactly when it is registered; a stored segment is installed and some entry points into
it; every entry's segment is stored; and the index lists the stored segments. -/
structure Tidy (d : Disk) : Prop where
  registered : ∀ s, (d.objects s).isSome → s ∈ d.s.segments ∧ d.s.installed s = true
  uploaded : ∀ s ∈ d.s.segments, (d.objects s).isSome
  used : ∀ s, (d.objects s).isSome → ∃ x ∈ d.lba2pba.entries, x.segment = s
  stored : ∀ x ∈ d.lba2pba.entries, (d.objects x.segment).isSome
  indexed : ∃ L, listSegments d.index = some L ∧ ListsStored d.objects L

/-- Tidiness reads only the store, the registry, the map and the index. -/
theorem Tidy.of_eq {d d' : Disk} (ht : Tidy d) (ho : d'.objects = d.objects) (hs : d'.s = d.s)
    (hm : d'.lba2pba = d.lba2pba) (hi : d'.index = d.index) : Tidy d' := by
  obtain ⟨h₁, h₂, h₃, h₄, h₅⟩ := ht
  rw [← ho, ← hs, ← hm, ← hi] at *
  exact ⟨h₁, h₂, h₃, h₄, h₅⟩

/-- A new volume stores, registers, maps and lists nothing. -/
theorem tidy_init (s0 : SegmentId) : Tidy (init s0) := by
  refine ⟨?_, ?_, ?_, ?_, [], rfl, fun s => ?_⟩ <;> simp [init, ListsStored]

/-- A cleanup of a disk whose store, registry and index are in step, whose stored segments are
installed and whose entries' segments are stored leaves the store tidy: it deletes exactly the
installed segments that no entry uses. -/
theorem tidy_cleanupDeletedSegments {d : Disk} (hm : d.lba2pba.Wf) (ha : d.lba2pba.Accounts d.s)
    (hind : ∃ L, listSegments d.index = some L ∧ ListsStored d.objects L)
    (hreg : ∀ s, (d.objects s).isSome → s ∈ d.s.segments ∧ d.s.installed s = true)
    (hup : ∀ s ∈ d.s.segments, (d.objects s).isSome)
    (hst : ∀ x ∈ d.lba2pba.entries, (d.objects x.segment).isSome) :
    Tidy (cleanupDeletedSegments d).1 := by
  obtain ⟨L, hL, hLs⟩ := hind
  obtain ⟨hobj, hseg, hinst, hmap⟩ := @removeDeleted_spec d (by simp [hL]) d.s.findDeleted
  -- A segment is stored after the cleanup exactly when it was before and is not dead.
  have hkept : ∀ s, ((removeDeleted d d.s.findDeleted).1.objects s).isSome ↔
      (d.objects s).isSome ∧ s ∉ d.s.findDeleted := by
    intro s
    rw [hobj]
    split_ifs with hd <;> simp [hd]
  show Tidy (removeDeleted d d.s.findDeleted).1
  refine ⟨fun s hs => ?_, fun s hs => ?_, fun s hs => ?_, fun x hx => ?_, ?_⟩
  · obtain ⟨hs, hd⟩ := (hkept s).mp hs
    exact ⟨(hseg s).mpr ⟨(hreg s hs).1, hd⟩, hinst ▸ (hreg s hs).2⟩
  · obtain ⟨hs, hd⟩ := (hseg s).mp hs
    exact (hkept s).mpr ⟨hup s hs, hd⟩
  · obtain ⟨hs, hd⟩ := (hkept s).mp hs
    by_contra hno
    push_neg at hno
    rw [hmap] at hno
    exact hd (ExtentMap.mem_findDeleted ha (hreg s hs).1 (hreg s hs).2 hno)
  · rw [hmap] at hx
    exact (hkept _).mpr ⟨hst x hx, fun hd => ExtentMap.findDeleted_unmapped ha hm hd x hx rfl⟩
  · -- indexed: the removed ids leave the index, zero ids in their slots
    obtain ⟨L', hL', hmem⟩ := removeDeleted_index hL d.s.findDeleted
    refine ⟨L', hL', fun s => ⟨fun hs => ?_, fun hs => ?_⟩⟩
    · obtain ⟨hs, hd⟩ := (hkept s).mp hs
      exact (hmem s).1 ⟨(hLs s).1 hs, hd⟩
    · rcases (hmem s).2 hs with h0 | ⟨hsL, hd⟩
      · exact .inl h0
      · exact ((hLs s).2 hsL).imp_right fun h => (hkept s).mpr ⟨h, hd⟩

/-- The flush goroutine run to its end, on a tidy disk with a well-formed map the registry
accounts for, of a creator with well-formed records under an id no entry uses, leaves the store
tidy: the new entries point into the segment it uploads, registers and installs, and the cleanup
does the rest. -/
theorem Tidy.flushSegment {D D' : Disk} {oc : SegmentCreator} {segId : SegmentId}
    (hf : flushSegment D oc segId = some D') (ht : Tidy D) (hm : D.lba2pba.Wf)
    (ha : D.lba2pba.Accounts D.s) (hfresh : ∀ x ∈ D.lba2pba.entries, x.segment ≠ segId)
    (hrec : oc.RecordsOk) : Tidy D' := by
  simp only [Disk.flushSegment, flushUpload, Option.map_map] at hf
  obtain ⟨idx, hidx, rfl⟩ := Option.map_eq_some'.mp hf
  have hes : ∀ e ∈ oc.locations segId, e.segment = segId ∧ 0 < e.extent.blocks := by
    intro e he
    obtain ⟨r, hr, rfl⟩ := List.mem_map.mp he
    exact ⟨rfl, (hrec r hr).1⟩
  obtain ⟨hwf, hacc, hmaps⟩ := ExtentMap.updateBatch_spec _ hes hm (ha.create hfresh)
    (List.mem_append_right _ (List.mem_singleton_self _))
  obtain ⟨L, hL, hLs⟩ := ht.indexed
  have hidx' : idx = appendToObjectsUpload L segId := by
    simpa [appendToObjects, hL] using hidx.symm
  refine tidy_cleanupDeletedSegments hwf hacc ⟨L ++ [segId], ?_, fun s => ⟨fun hs => ?_, fun hs => ?_⟩⟩
    (fun s hs => ?_) (fun s hs => ?_) (fun x hx => ?_)
  · show listSegments (some idx) = _
    simp [hidx', listSegments, appendToObjectsUpload, readSegments_encodeSegments]
  · -- the index lists the new segment after the others
    change (if s = segId then some (oc.flush segId).1 else D.objects s).isSome at hs
    split_ifs at hs with hsg
    · exact List.mem_append_right _ (List.mem_singleton.mpr hsg)
    · exact List.mem_append_left _ ((hLs s).1 hs)
  · show s = 0 ∨ (if s = segId then some (oc.flush segId).1 else D.objects s).isSome
    split_ifs with hsg
    · exact .inr rfl
    · exact (hLs s).2 ((List.mem_append.mp hs).resolve_right (by simpa using hsg))
  · -- registered: the new segment, or one registered and installed before
    simp only [clearPrev, install, create, ExtentMap.segments_updateBatch,
      ExtentMap.installed_updateBatch, Segments.create, List.mem_append, List.mem_singleton,
      Bool.or_eq_true, decide_eq_true_eq] at hs ⊢
    split_ifs at hs with hsg
    · exact ⟨.inr hsg, .inl hsg⟩
    · exact ⟨.inl (ht.registered s hs).1, .inr (ht.registered s hs).2⟩
  · -- uploaded
    simp only [clearPrev, install, create, ExtentMap.segments_updateBatch, Segments.create,
      List.mem_append, List.mem_singleton] at hs ⊢
    split_ifs with hsg
    · rfl
    · exact ht.uploaded s (hs.resolve_right hsg)
  · -- stored: a new entry is in the new segment, an old one where it was
    show (if x.segment = segId then some (oc.flush segId).1 else D.objects x.segment).isSome
    split_ifs with hsg
    · rfl
    rcases (hmaps _ _).mp (ExtentMap.maps_of_mem hx (hwf.pos x hx)) with hnew | ⟨-, y, hy, -, hxy⟩
    · exact absurd (hes _ (ExtentMap.latestIn_mem hnew)).1 hsg
    · exact congrArg ExtentLocation.segment hxy ▸ ht.stored y hy

section

variable {lz : Lz4} {d d' : Disk} {env : WriteEnv} {r : Except WriteError Unit}

/-- A seal under the invariant keeps the store tidy, however it ends: a failed one changes
neither the store, the registry nor the map, and a flushed one installs its segment and cleans
up. -/
theorem Tidy.sealAndFlush (h : Inv lz d) (ht : Tidy d) (hs : sealAndFlush env d = some (d', r)) :
    Tidy d' := by
  obtain ⟨oc, hcur, -, hrec⟩ := h.cur
  cases hseq : env.nextSeq d.curSeq with
  | none =>
    rw [Disk.sealAndFlush, (closeSegmentAsync_error env d).1 hseq] at hs
    cases hs
    exact ht.of_eq rfl rfl rfl rfl
  | some seq =>
    cases hok : env.createOk seq with
    | false =>
      rw [Disk.sealAndFlush, (closeSegmentAsync_error env d).2 seq hseq hok] at hs
      cases hs
      exact ht.of_eq rfl rfl rfl rfl
    | true =>
      simp only [Disk.sealAndFlush, closeSegmentAsync_ok hseq hok h.prev, hcur,
        Option.map_eq_some', Prod.mk.injEq] at hs
      obtain ⟨d'', hf, rfl, -⟩ := hs
      exact Tidy.flushSegment hf (ht.of_eq rfl rfl rfl rfl) h.map h.accounts
        (fun x hx => (h.regFresh _ (h.accounts.registered x hx)).ne) hrec

/-- The threshold check after a write keeps the store tidy: it seals the disk with the new
creator, or only sets the creator. -/
theorem Tidy.sealIfFull {oc : SegmentCreator} (h : Inv lz { d with curOC := some oc })
    (ht : Tidy d) (hs : sealIfFull env d oc = some (d', r)) : Tidy d' := by
  unfold Disk.sealIfFull at hs
  split_ifs at hs
  · exact Tidy.sealAndFlush h (ht.of_eq rfl rfl rfl rfl) hs
  · cases hs
    exact ht.of_eq rfl rfl rfl rfl

/-- Every valid operation of the writer and the readers on a disk that implements a device keeps
the store tidy. -/
theorem Tidy.step (hlz : lz.Inverts) {dev : ℕ → Block} (h : Refines lz d dev) (ht : Tidy d)
    {op : Op} (hop : op.Valid) (hs : step lz env d op = some d') : Tidy d' := by
  obtain ⟨oc, hcur, hoc, hrec⟩ := h.inv.cur
  cases op with
  | writeExtent data =>
    simp only [Disk.step, Disk.writeExtent, hcur, Option.map_eq_some'] at hs
    obtain ⟨⟨d'', r⟩, hw, rfl⟩ := hs
    exact Tidy.sealIfFull (h.inv.setCur (SegmentCreator.writeExtent_spec hlz hoc hop).1
      (hrec.writeExtent hop)) ht hw
  | writeExtents ranges =>
    obtain ⟨hwf, hrec', -⟩ := (h.shows hcur).foldl_writeExtent hlz hop hoc hrec
    simp only [Disk.step, Disk.writeExtents, hcur, Option.map_eq_some'] at hs
    obtain ⟨⟨d'', r⟩, hw, rfl⟩ := hs
    exact Tidy.sealIfFull (h.inv.setCur hwf hrec') ht hw
  | zeroBlocks rng =>
    simp only [Disk.step, Disk.zeroBlocks, hcur, Option.some.injEq] at hs
    subst hs
    exact ht.of_eq rfl rfl rfl rfl
  | closeSegment =>
    obtain ⟨⟨d'', r⟩, hw, rfl⟩ := Option.map_eq_some'.mp hs
    exact ht.sealAndFlush h.inv hw
  | readExtent rng =>
    obtain ⟨data, c, o, hread, -⟩ := h.inv.readExtent rng
    simp only [Disk.step, hread, Option.some.injEq] at hs
    subst hs
    exact ht.of_eq rfl rfl rfl rfl

/-- A run of valid operations on a tidy disk that implements a device, with an id for each seal,
returns a tidy disk. -/
theorem Tidy.run (hlz : lz.Inverts) {dev : ℕ → Block} {ops : List Op}
    (hops : ∀ op ∈ ops, op.Valid) (h : Refines lz d dev) (ht : Tidy d)
    (henv : reliable env d.curSeq ops.length = true) :
    ∃ d', run lz env d ops = some d' ∧ Tidy d' := by
  induction ops generalizing d dev with
  | nil => exact ⟨d, rfl, ht⟩
  | cons op ops ih =>
    have hop := hops op (List.mem_cons_self _ _)
    obtain ⟨d₁, hstep, h₁, henv₁⟩ := step_refines hlz h henv hop
    obtain ⟨d₂, hrun, ht₂⟩ := ih (fun x hx => hops x (List.mem_cons_of_mem _ hx)) h₁
      (ht.step hlz h hop hstep) henv₁
    exact ⟨d₂, by simp [Disk.run, hstep, hrun], ht₂⟩

end

/-- After every run of valid operations from a new volume, each seal's flush run to its end and
an id drawn for each seal, the object store, the registry and the extent map agree: a segment is
stored exactly when it is registered, and exactly when some entry of the map points into it. No
garbage is left in the store, and no entry points at a deleted object. -/
theorem run_stores_exactly_mapped_segments {lz : Lz4} (hlz : lz.Inverts) {env : WriteEnv}
    {s0 : SegmentId} {ops : List Op} (hops : ∀ op ∈ ops, op.Valid)
    (henv : reliable env s0 ops.length = true) :
    ∃ d, run lz env (init s0) ops = some d ∧ ∀ s,
      ((d.objects s).isSome ↔ s ∈ d.s.segments) ∧
        ((d.objects s).isSome ↔ ∃ x ∈ d.lba2pba.entries, x.segment = s) := by
  obtain ⟨d, hrun, ht⟩ := Tidy.run hlz hops (init_refines lz s0) (tidy_init s0) henv
  exact ⟨d, hrun, fun s => ⟨⟨fun hs => (ht.registered s hs).1, ht.uploaded s⟩,
    ⟨ht.used s, fun ⟨x, hx, hxs⟩ => hxs ▸ ht.stored x hx⟩⟩⟩

/-- Block 0 written and sealed twice: the second seal's cleanup deletes the first segment, whose
only entry the second has replaced. -/
theorem run_stores_exactly_mapped_segments_rewrite :
    Lz4.never.Inverts ∧
      (∀ op ∈ [Op.writeExtent ⟨⟨0, 1⟩, onesBlock⟩, .closeSegment,
        .writeExtent ⟨⟨0, 1⟩, onesBlock⟩, .closeSegment], op.Valid) ∧
      reliable countingEnv 0 4 = true ∧
      ∃ d, run Lz4.never countingEnv (init 0) [.writeExtent ⟨⟨0, 1⟩, onesBlock⟩, .closeSegment,
          .writeExtent ⟨⟨0, 1⟩, onesBlock⟩, .closeSegment] = some d ∧ ∀ s,
        ((d.objects s).isSome ↔ s ∈ d.s.segments) ∧
          ((d.objects s).isSome ↔ ∃ x ∈ d.lba2pba.entries, x.segment = s) := by
  have hops : ∀ op ∈ [Op.writeExtent ⟨⟨0, 1⟩, onesBlock⟩, .closeSegment,
      .writeExtent ⟨⟨0, 1⟩, onesBlock⟩, .closeSegment], op.Valid := by
    simp [Op.Valid, RangeData.Wf, onesBlock]
  have henv : reliable countingEnv 0 4 = true := by decide
  exact ⟨Lz4.never_inverts, hops, henv,
    run_stores_exactly_mapped_segments Lz4.never_inverts hops henv⟩

/-- After every run of valid operations from a new volume, each seal's flush run to its end and
an id drawn for each seal, the volume's index can be listed, lists every stored segment, and
besides them lists only zero ids: those `RemoveSegmentFromVolume` leaves in the slots it empties,
for it does not shorten the list. -/
theorem run_index_lists_stored_segments {lz : Lz4} (hlz : lz.Inverts) {env : WriteEnv}
    {s0 : SegmentId} {ops : List Op} (hops : ∀ op ∈ ops, op.Valid)
    (henv : reliable env s0 ops.length = true) :
    ∃ d, run lz env (init s0) ops = some d ∧ ∃ L, listSegments d.index = some L ∧
      ∀ s, ((d.objects s).isSome → s ∈ L) ∧ (s ∈ L → s = 0 ∨ (d.objects s).isSome) := by
  obtain ⟨d, hrun, ht⟩ := Tidy.run hlz hops (init_refines lz s0) (tidy_init s0) henv
  exact ⟨d, hrun, ht.indexed⟩

/-- Block 0 written and sealed twice from id 1: the second cleanup removes segment 1 and leaves
a zero id, which names no segment, in its slot. -/
theorem run_index_lists_stored_segments_rewrite :
    Lz4.never.Inverts ∧
      (∀ op ∈ [Op.writeExtent ⟨⟨0, 1⟩, onesBlock⟩, .closeSegment,
        .writeExtent ⟨⟨0, 1⟩, onesBlock⟩, .closeSegment], op.Valid) ∧
      reliable countingEnv 1 4 = true ∧
      ∃ d, run Lz4.never countingEnv (init 1) [.writeExtent ⟨⟨0, 1⟩, onesBlock⟩, .closeSegment,
          .writeExtent ⟨⟨0, 1⟩, onesBlock⟩, .closeSegment] = some d ∧
        ∃ L, listSegments d.index = some L ∧
          ∀ s, ((d.objects s).isSome → s ∈ L) ∧ (s ∈ L → s = 0 ∨ (d.objects s).isSome) := by
  have hops : ∀ op ∈ [Op.writeExtent ⟨⟨0, 1⟩, onesBlock⟩, .closeSegment,
      .writeExtent ⟨⟨0, 1⟩, onesBlock⟩, .closeSegment], op.Valid := by
    simp [Op.Valid, RangeData.Wf, onesBlock]
  have henv : reliable countingEnv 1 4 = true := by decide
  exact ⟨Lz4.never_inverts, hops, henv,
    run_index_lists_stored_segments Lz4.never_inverts hops henv⟩

/-! ## Every write is in the store at `Close` -/

section

variable {lz : Lz4} {d : Disk} {env : WriteEnv}

/-- A seal under the invariant, with the next id drawn and its creator made, leaves an empty
current creator. -/
theorem Inv.sealAndFlush_curOC (h : Inv lz d) {seq : SegmentId}
    (hseq : env.nextSeq d.curSeq = some seq) (hok : env.createOk seq = true) {d' : Disk}
    {r : Except WriteError Unit} (hs : Disk.sealAndFlush env d = some (d', r)) :
    d'.curOC = some {} := by
  obtain ⟨oc, hcur, -⟩ := h.cur
  simp only [Disk.sealAndFlush, closeSegmentAsync_ok hseq hok h.prev, hcur, Option.map_eq_some',
    Prod.mk.injEq] at hs
  obtain ⟨d'', hf, rfl, -⟩ := hs
  exact flushSegment_curOC hf

/-- A run of valid operations, with ids to spare, on a disk that implements a device returns a
disk that implements the device after them, with the ids it did not use still to be drawn. -/
theorem run_refines_spare (hlz : lz.Inverts) {dev : ℕ → Block} {ops : List Op}
    (hops : ∀ op ∈ ops, op.Valid) (h : Refines lz d dev) {k : ℕ}
    (henv : reliable env d.curSeq (ops.length + k) = true) :
    ∃ d', run lz env d ops = some d' ∧ Refines lz d' (ops.foldl Op.apply dev) ∧
      reliable env d'.curSeq k = true := by
  induction ops generalizing d dev with
  | nil => exact ⟨d, rfl, h, by simpa using henv⟩
  | cons op ops ih =>
    have henv' : reliable env d.curSeq (ops.length + k + 1) = true := by
      rwa [List.length_cons, Nat.add_right_comm] at henv
    obtain ⟨d₁, hstep, h₁, henv₁⟩ := step_refines hlz h henv' (hops op (List.mem_cons_self _ _))
    obtain ⟨d₂, hrun, h₂, hk⟩ := ih (fun x hx => hops x (List.mem_cons_of_mem _ hx)) h₁ henv₁
    exact ⟨d₂, by simp [Disk.run, hstep, hrun], h₂, hk⟩

end

/-- After every run of valid operations from a new volume, each seal's flush run to its end before
the next operation, with an id drawn for each seal and one more for the seal `Close` makes,
`Close` succeeds and leaves every block of the device in the object store: the current creator is
empty, there is no previous one, and the extent map and the stored segments alone show the
device. -/
theorem close_after_run_durable {lz : Lz4} (hlz : lz.Inverts) {env : WriteEnv} {s0 : SegmentId}
    {ops : List Op} (hops : ∀ op ∈ ops, op.Valid) (henv : reliable env s0 (ops.length + 1) = true) :
    ∃ d d', run lz env (init s0) ops = some d ∧ close env d = some (d', .ok ()) ∧
      d'.curOC = some {} ∧ d'.prevCache = none ∧ ∀ l, d'.storeView lz l = device ops l := by
  obtain ⟨d, hrun, h, hrest⟩ := run_refines_spare hlz hops (init_refines lz s0) henv
  obtain ⟨seq, hseq, hlt, hok, -⟩ := reliable_succ.mp hrest
  obtain ⟨d', hseal, hinv, -, hview⟩ := h.inv.sealAndFlush hseq hlt hok
  have hcur := h.inv.sealAndFlush_curOC hseq hok hseal
  refine ⟨d, { d' with openSegments := [] }, hrun, by simp [close, hseal], hcur, hinv.prev,
    fun l => ?_⟩
  calc Disk.storeView lz { d' with openSegments := [] } l = d'.view lz l := by
        rw [Disk.view_eq, cacheLookup_of_prev hcur hinv.prev]
        rfl
    _ = d.view lz l := hview l
    _ = device ops l := h.view l

/-- Block 0 written with ones, sealed, and block 1 zeroed, then `Close`. -/
theorem close_after_run_durable_write_seal_zero :
    Lz4.never.Inverts ∧
      (∀ op ∈ [Op.writeExtent ⟨⟨0, 1⟩, onesBlock⟩, .closeSegment, .zeroBlocks ⟨1, 1⟩], op.Valid) ∧
      reliable countingEnv 0 (3 + 1) = true ∧
      ∃ d d', run Lz4.never countingEnv (init 0)
          [.writeExtent ⟨⟨0, 1⟩, onesBlock⟩, .closeSegment, .zeroBlocks ⟨1, 1⟩] = some d ∧
        close countingEnv d = some (d', .ok ()) ∧ d'.curOC = some {} ∧ d'.prevCache = none ∧
        ∀ l, d'.storeView Lz4.never l =
          device [.writeExtent ⟨⟨0, 1⟩, onesBlock⟩, .closeSegment, .zeroBlocks ⟨1, 1⟩] l := by
  have hops : ∀ op ∈ [Op.writeExtent ⟨⟨0, 1⟩, onesBlock⟩, .closeSegment, .zeroBlocks ⟨1, 1⟩],
      op.Valid := by
    simp [Op.Valid, RangeData.Wf, onesBlock]
  have henv : reliable countingEnv 0 (3 + 1) = true := by decide
  exact ⟨Lz4.never_inverts, hops, henv, close_after_run_durable Lz4.never_inverts hops henv⟩

/-! ## Less than `FlushThreshHold` held only in the current creator -/

/-- The current creator, if there is one, holds fewer than `FlushThreshHold` bytes of body. -/
def Bounded (d : Disk) : Prop := ∀ oc, d.curOC = some oc → oc.bodySize < FlushThreshHold

section

variable {lz : Lz4} {env : WriteEnv} {d d' : Disk} {r : Except WriteError Unit}

/-- No creator, or an empty one. -/
theorem bounded_of_curOC (h : d.curOC = none ∨ d.curOC = some {}) : d.Bounded := by
  rintro oc hoc
  rcases h with h | h <;> rw [h] at hoc <;> cases hoc
  decide

/-- The writer's part of a seal leaves an empty creator, or none when `newSegmentCreator`
failed. -/
theorem closeSegmentAsync_curOC {x : Except WriteError (Option SegmentCreator × SegmentId)}
    (h : closeSegmentAsync env d = some (d', x)) : d'.curOC = none ∨ d'.curOC = some {} := by
  unfold closeSegmentAsync setWhenClear at h
  rw [replaceCreator_eq] at h
  cases hseq : env.nextSeq d.curSeq with
  | none =>
    simp only [hseq, Option.some.injEq, Prod.mk.injEq] at h
    exact .inl (h.1 ▸ rfl)
  | some seq =>
    by_cases hok : env.createOk seq
    · simp only [hseq, hok, if_true] at h
      split at h
      · simp only [Option.map_some', Option.some.injEq, Prod.mk.injEq] at h
        exact .inr (h.1 ▸ rfl)
      · cases h
    · simp only [hseq, hok, Bool.false_eq_true, if_false, Option.some.injEq, Prod.mk.injEq] at h
      exact .inl (h.1 ▸ rfl)

/-- A seal, whatever its outcome, leaves the current creator bounded: the goroutine does not
touch it. -/
theorem sealAndFlush_bounded (hs : sealAndFlush env d = some (d', r)) : d'.Bounded := by
  unfold sealAndFlush at hs
  split at hs
  · cases hs
  · cases hs
    exact bounded_of_curOC (closeSegmentAsync_curOC ‹_›)
  · cases hs
    exact bounded_of_curOC (closeSegmentAsync_curOC ‹_›)
  · obtain ⟨d'', hf, hd⟩ := Option.map_eq_some'.mp hs
    cases hd
    exact bounded_of_curOC (flushSegment_curOC hf ▸ closeSegmentAsync_curOC ‹_›)

/-- The threshold check: a creator at the threshold is sealed, one below it kept. -/
theorem sealIfFull_bounded {oc : SegmentCreator} (hs : sealIfFull env d oc = some (d', r)) :
    d'.Bounded := by
  unfold sealIfFull at hs
  split_ifs at hs with hfull
  · exact sealAndFlush_bounded hs
  · cases hs
    rintro oc' ⟨⟩
    omega

/-- Every operation keeps the current creator bounded. `WriteExtent` and `WriteExtents` end with
the threshold check; `ZeroBlocks`, which has none, adds a record with no body bytes; a read
changes only the caches. -/
theorem Bounded.step (hb : d.Bounded) {op : Op} (hs : Disk.step lz env d op = some d') :
    d'.Bounded := by
  cases op with
  | writeExtent data =>
    obtain ⟨⟨d₁, r⟩, hw, rfl⟩ := Option.map_eq_some'.mp hs
    unfold writeExtent at hw
    split at hw
    · cases hw
      exact hb
    · exact sealIfFull_bounded hw
  | writeExtents ranges =>
    obtain ⟨⟨d₁, r⟩, hw, rfl⟩ := Option.map_eq_some'.mp hs
    unfold writeExtents at hw
    split at hw
    · cases hw
      exact hb
    · exact sealIfFull_bounded hw
  | zeroBlocks rng =>
    cases hs
    unfold zeroBlocks
    split
    · exact hb
    · rename_i oc hcur
      rintro _ ⟨⟩
      exact hb oc hcur
  | closeSegment =>
    obtain ⟨⟨d₁, r⟩, hw, rfl⟩ := Option.map_eq_some'.mp hs
    exact sealAndFlush_bounded hw
  | readExtent rng =>
    simp only [Disk.step] at hs
    split at hs
    · obtain ⟨c, o, rfl⟩ := readExtent_caches ‹_›
      cases hs
      exact hb
    · cases hs
      exact hb

/-- Every run keeps it. -/
theorem Bounded.run (hb : d.Bounded) {ops : List Op} (hrun : Disk.run lz env d ops = some d') :
    d'.Bounded := by
  induction ops generalizing d with
  | nil =>
    cases hrun
    exact hb
  | cons op ops ih =>
    obtain ⟨d₁, h₁, hrun⟩ := Option.bind_eq_some.mp hrun
    exact ih (hb.step h₁) hrun

end

/-- After every run of operations from a new volume, whatever the writer's environment does, the
current creator, if there is one, holds fewer than `FlushThreshHold` bytes of body: at most that
much acknowledged data is held in the write cache alone between operations. -/
theorem run_body_below_threshold {lz : Lz4} {env : WriteEnv} {s0 : SegmentId} {ops : List Op}
    {d : Disk} (hrun : run lz env (init s0) ops = some d) :
    ∀ oc, d.curOC = some oc → oc.bodySize < FlushThreshHold :=
  (bounded_of_curOC (.inr rfl)).run hrun

/-- Block 0 written and sealed, then block 1 zeroed. -/
theorem run_body_below_threshold_write_seal_zero :
    ∃ d, run Lz4.never countingEnv (init 0) [.writeExtent ⟨⟨0, 1⟩, onesBlock⟩, .closeSegment,
        .zeroBlocks ⟨1, 1⟩] = some d ∧ ∀ oc, d.curOC = some oc → oc.bodySize < FlushThreshHold := by
  have hops : ∀ op ∈ [Op.writeExtent ⟨⟨0, 1⟩, onesBlock⟩, .closeSegment, .zeroBlocks ⟨1, 1⟩],
      op.Valid := by
    simp [Op.Valid, RangeData.Wf, onesBlock]
  obtain ⟨d, hrun, -⟩ := run_refines Lz4.never_inverts hops (init_refines Lz4.never 0)
    (show reliable countingEnv 0 3 = true by decide)
  exact ⟨d, hrun, run_body_below_threshold hrun⟩

/-! ## `Close` over every interleaving -/

namespace Sys

section

variable {lz : Lz4} {env : WriteEnv} {S S' : Sys}

/-- With no goroutine, nothing holds the previous cache. -/
theorem Live.prevCache_eq_none (hl : S.Live) (hnil : S.flushers = []) : S.disk.prevCache = none := by
  cases hp : S.disk.prevCache with
  | none => rfl
  | some p =>
    obtain ⟨f, hf, -⟩ := hl.prev (by rw [hp]; rfl)
    rw [hnil] at hf
    cases hf

/-- Goroutines' steps keep the registry's invariant and the layers, and change neither the
acknowledged writes, the writer's creators nor `curSeq`. -/
theorem flushSteps_keep (h : S.Inv) (hc : S.Coherent lz) {steps : List Action}
    (hsteps : ∀ a ∈ steps, ∃ i, a = Action.flushStep i) (hrun : Sys.run lz env S steps = some S') :
    S'.Inv ∧ S'.Coherent lz ∧ S'.acked = S.acked ∧ S'.disk.curOC = S.disk.curOC ∧
      S'.held = S.held ∧ S'.disk.curSeq = S.disk.curSeq := by
  induction steps generalizing S with
  | nil =>
    cases hrun
    exact ⟨h, hc, rfl, rfl, rfl, rfl⟩
  | cons a as ih =>
    obtain ⟨S₁, h₁, hrun⟩ := Option.bind_eq_some.mp hrun
    obtain ⟨i, rfl⟩ := hsteps a (List.mem_cons_self _ _)
    obtain ⟨f, d', f', hi, hf, rfl⟩ := step_flushStep h₁
    have hspec := Flusher.step_spec h.gc (h.flushers f (List.getElem?_mem hi)) hf
    obtain ⟨h', hc', hack, hcur, hheld, hseq⟩ := ih (h.flushStep hi hf) (hc.flushStep h hi hf)
      (fun b hb => hsteps b (List.mem_cons_of_mem _ hb)) hrun
    exact ⟨h', hc', hack, hcur.trans hspec.curOC, hheld, hseq.trans hspec.curSeq⟩

/-- With an empty current creator, none held and none in the previous cache, the layers are the
map and the store. -/
theorem view_of_closed (hcur : S.disk.curOC = some {}) (hheld : S.held = none)
    (hprev : S.disk.prevCache = none) : S.view lz = S.disk.storeView lz := by
  simp only [Sys.view, heldOC, hheld, hcur, prevView, hprev, Option.toList_some,
    Option.toList_none, List.append_nil, layers_empty, layers_nil]

end

end Sys

/-! ## No garbage once the goroutines are done -/

/-- Whether a goroutine is between `Flush` and `UpdateBatch`: its segment uploaded, its batch not
yet installed. -/
def Stage.uploaded : Stage → Bool
  | .create _ _ | .update _ => true
  | _ => false

/-- Goroutine `f`'s cleanup will still come to segment `s`: `f` is before its `FindDeleted`, or `s`
is left in its cleanup loop. -/
def Flusher.Finds (f : Flusher) (s : SegmentId) : Prop :=
  match f.stage with
  | .remove segs => s ∈ segs
  | _ => True

namespace Sys

/-- The store holds no segment that no one will collect: every stored segment is used by the map,
or uploaded by a goroutine that has still to install it, or registered, installed and dead, with a
goroutine's cleanup still to come to it; and every segment the map uses is stored and installed. -/
structure Collects (S : Sys) : Prop where
  stored : ∀ s, (S.disk.objects s).isSome → (∃ x ∈ S.disk.lba2pba.entries, x.segment = s) ∨
    (∃ f ∈ S.flushers, f.segId = s ∧ f.stage.uploaded = true) ∨
    (s ∈ S.disk.s.segments ∧ S.disk.s.installed s = true ∧
      (∀ x ∈ S.disk.lba2pba.entries, x.segment ≠ s) ∧ ∃ f ∈ S.flushers, f.Finds s)
  mapped : ∀ x ∈ S.disk.lba2pba.entries,
    (S.disk.objects x.segment).isSome ∧ S.disk.s.installed x.segment = true

/-- A new volume stores nothing. -/
theorem collects_init (s0 : SegmentId) : (init s0).Collects :=
  ⟨fun _ hs => absurd hs (by simp [init, Disk.init]), fun _ hx => (nomatch hx)⟩

section

variable {lz : Lz4} {env : WriteEnv} {S S' : Sys}

/-- A step that changes neither the store, the map nor the registry, and drops no goroutine. -/
theorem Collects.frame (hcl : S.Collects) (ho : S'.disk.objects = S.disk.objects)
    (hm : S'.disk.lba2pba = S.disk.lba2pba) (hr : S'.disk.s = S.disk.s)
    (hf : ∀ f ∈ S.flushers, f ∈ S'.flushers) : S'.Collects := by
  refine ⟨fun s hs => ?_, fun x hx => ?_⟩
  · rw [ho] at hs
    rw [hm, hr]
    rcases hcl.stored s hs with ha | ⟨g, hg, hgs⟩ | ⟨hreg, hinst, hno, g, hg, hgf⟩
    · exact .inl ha
    · exact .inr (.inl ⟨g, hf g hg, hgs⟩)
    · exact .inr (.inr ⟨hreg, hinst, hno, g, hf g hg, hgf⟩)
  · rw [hm] at hx
    rw [ho, hr]
    exact hcl.mapped x hx

/-- A goroutine's step keeps the store collected. `Flush` stores a segment it has still to install;
`UpdateBatch` installs it, and a segment its batch takes the last entries from is dead, for the
goroutine's own cleanup to come to; `FindDeleted` lists every dead segment; and the cleanup
removes a segment only once it is dead, the index listing as it goes. -/
theorem Collects.flushStep (hcl : S.Collects) (h : S.Inv)
    (hidx : (listSegments S.disk.index).isSome) {i : ℕ} {f : Flusher}
    (hi : S.flushers[i]? = some f) {d' : Disk} {f' : Option Flusher}
    (hs : f.step S.disk = some (d', f')) :
    Collects { S with disk := d', flushers := setOrDrop S.flushers i f' } := by
  have hok := h.flushers f (List.getElem?_mem hi)
  -- A goroutine with a property is still there, or `f` had it and what `f` becomes has it.
  have hkeep : ∀ {P : Flusher → Prop}, (∃ g ∈ S.flushers, P g) →
      (P f → ∃ g ∈ f'.toList, P g) → ∃ g ∈ setOrDrop S.flushers i f', P g := by
    rintro P ⟨g, hg, hPg⟩ hP
    rw [eq_take_cons_drop hi, List.mem_append, List.mem_cons] at hg
    rcases hg with hg | rfl | hg
    · exact ⟨g, List.mem_append_left _ (List.mem_append_left _ hg), hPg⟩
    · obtain ⟨g', hg', hPg'⟩ := hP hPg
      exact ⟨g', List.mem_append_left _ (List.mem_append_right _ hg'), hPg'⟩
    · exact ⟨g, List.mem_append_right _ hg, hPg⟩
  -- Past `UpdateBatch`, `f` has no segment left to install.
  have hnotup : f.stage.uploaded = false → ∀ {s}, ¬ (f.segId = s ∧ f.stage.uploaded = true) :=
    fun hu _ hP => by rw [hu] at hP; exact Bool.false_ne_true hP.2
  cases hst : f.stage with
  | flush =>
    obtain ⟨idx, -, rfl, rfl⟩ := Flusher.step_flush hst hs
    refine ⟨fun s hs' => ?_, fun x hx => ⟨?_, (hcl.mapped x hx).2⟩⟩
    · by_cases hsf : s = f.segId
      · exact .inr (.inl ⟨_, List.mem_append_left _ (List.mem_append_right _
          (List.mem_singleton_self _)), hsf.symm, rfl⟩)
      · change (if s = f.segId then _ else S.disk.objects s).isSome at hs'
        rw [if_neg hsf] at hs'
        rcases hcl.stored s hs' with ha | hb | ⟨hreg, hinst, hno, hc⟩
        · exact .inl ha
        · exact .inr (.inl (hkeep hb fun hP => ⟨_, List.mem_singleton_self _, hP.1, rfl⟩))
        · exact .inr (.inr ⟨hreg, hinst, hno,
            hkeep hc fun _ => ⟨_, List.mem_singleton_self _, trivial⟩⟩)
    · change (if x.segment = f.segId then _ else S.disk.objects x.segment).isSome
      split_ifs
      · rfl
      · exact (hcl.mapped x hx).1
  | create es stats =>
    obtain ⟨rfl, rfl⟩ := Flusher.step_create hst hs
    refine ⟨fun s hs' => ?_, hcl.mapped⟩
    rcases hcl.stored s hs' with ha | hb | ⟨hreg, hinst, hno, hc⟩
    · exact .inl ha
    · exact .inr (.inl (hkeep hb fun hP => ⟨_, List.mem_singleton_self _, hP.1, rfl⟩))
    · exact .inr (.inr ⟨List.mem_append_left _ hreg, hinst, hno,
        hkeep hc fun _ => ⟨_, List.mem_singleton_self _, trivial⟩⟩)
  | update es =>
    rw [Flusher.Ok, hst] at hok
    obtain ⟨hb, -, hreg, ho⟩ := hok
    obtain ⟨rfl, rfl⟩ := Flusher.step_update hst hs
    obtain ⟨hwf, -, hmaps⟩ := ExtentMap.updateBatch_spec es hb h.gc.1 h.gc.2.1 hreg
    have hinst := ExtentMap.installed_updateBatch S.disk.lba2pba es f.segId S.disk.s
    have hsegs := ExtentMap.segments_updateBatch S.disk.lba2pba es f.segId S.disk.s
    -- An entry of the new map is in the installed segment, or in one an old entry is in.
    have hent : ∀ x ∈ (S.disk.install es f.segId).lba2pba.entries,
        x.segment = f.segId ∨ ∃ y ∈ S.disk.lba2pba.entries, y.segment = x.segment := fun x hx =>
      ((hmaps _ _).mp (ExtentMap.maps_of_mem hx (hwf.pos x hx))).imp
        (fun h' => (hb _ (ExtentMap.latestIn_mem h')).1)
        fun ⟨_, y, hy, _, hyx⟩ => ⟨y, hy, congrArg ExtentLocation.segment hyx⟩
    have hmono : ∀ s, S.disk.s.installed s = true →
        (S.disk.install es f.segId).s.installed s = true := fun s hs => by
      simp [Disk.install, hinst, hs]
    refine ⟨fun s hs' => ?_, fun x hx => ?_⟩
    · by_cases hm : ∃ x ∈ (S.disk.install es f.segId).lba2pba.entries, x.segment = s
      · exact .inl hm
      push_neg at hm
      -- A registered, installed segment the new map does not use: dead, for `f`'s cleanup.
      have hdead : s ∈ S.disk.s.segments → (S.disk.install es f.segId).s.installed s = true →
          (s ∈ (S.disk.install es f.segId).s.segments ∧
            (S.disk.install es f.segId).s.installed s = true ∧
            (∀ x ∈ (S.disk.install es f.segId).lba2pba.entries, x.segment ≠ s) ∧
            ∃ g ∈ setOrDrop S.flushers i (some { f with stage := .clear }), g.Finds s) :=
        fun hreg' hinst' => ⟨by simpa [Disk.install, hsegs] using hreg', hinst', hm,
          _, List.mem_append_left _ (List.mem_append_right _ (List.mem_singleton_self _)), trivial⟩
      by_cases hsf : s = f.segId
      · subst hsf
        exact .inr (.inr (hdead hreg (by simp [Disk.install, hinst])))
      rcases hcl.stored s hs' with ⟨y, hy, rfl⟩ | hb' | ⟨hreg', hinst', -, -⟩
      · exact .inr (.inr (hdead (h.gc.2.1.registered y hy) (hmono _ (hcl.mapped y hy).2)))
      · exact .inr (.inl (hkeep hb' fun hP => absurd hP.1.symm hsf))
      · exact .inr (.inr (hdead hreg' (hmono _ hinst')))
    · rcases hent x hx with hx' | ⟨y, hy, hyx⟩
      · rw [hx']
        exact ⟨ho, by simp [Disk.install, hinst]⟩
      · rw [← hyx]
        exact ⟨(hcl.mapped y hy).1, hmono _ (hcl.mapped y hy).2⟩
  | clear =>
    obtain ⟨rfl, rfl⟩ := Flusher.step_clear hst hs
    refine ⟨fun s hs' => ?_, hcl.mapped⟩
    rcases hcl.stored s hs' with ha | hb | ⟨hreg, hinst, hno, hc⟩
    · exact .inl ha
    · exact .inr (.inl (hkeep hb fun hP => absurd hP (hnotup (by rw [hst]; rfl))))
    · exact .inr (.inr ⟨hreg, hinst, hno,
        hkeep hc fun _ => ⟨_, List.mem_singleton_self _, trivial⟩⟩)
  | findDeleted =>
    obtain ⟨rfl, rfl⟩ := Flusher.step_findDeleted hst hs
    refine ⟨fun s hs' => ?_, hcl.mapped⟩
    rcases hcl.stored s hs' with ha | hb | ⟨hreg, hinst, hno, hc⟩
    · exact .inl ha
    · exact .inr (.inl (hkeep hb fun hP => absurd hP (hnotup (by rw [hst]; rfl))))
    · exact .inr (.inr ⟨hreg, hinst, hno, hkeep hc fun _ => ⟨_, List.mem_singleton_self _,
        ExtentMap.mem_findDeleted h.gc.2.1 hreg hinst hno⟩⟩)
  | remove segs =>
    rw [Flusher.Ok, hst] at hok
    have hnu : f.stage.uploaded = false := by rw [hst]; rfl
    cases segs with
    | nil =>
      obtain ⟨rfl, rfl⟩ | ⟨_, _, _, ⟨⟩, -⟩ := Flusher.step_remove hst hs
      refine ⟨fun s hs' => ?_, hcl.mapped⟩
      rcases hcl.stored s hs' with ha | hb | ⟨hreg, hinst, hno, hc⟩
      · exact .inl ha
      · exact .inr (.inl (hkeep hb fun hP => absurd hP (hnotup hnu)))
      · refine .inr (.inr ⟨hreg, hinst, hno, hkeep hc fun hP => ?_⟩)
        simp [Flusher.Finds, hst] at hP
    | cons j js =>
      -- The index lists, so `RemoveSegmentFromVolume` goes through.
      obtain ⟨L, hL⟩ := Option.isSome_iff_exists.mp hidx
      have hr : removeSegmentFromVolume S.disk.index j =
          some (removeSegmentFromVolumeUpload L j) := by
        simp [removeSegmentFromVolume, hL]
      rcases Flusher.step_remove hst hs with ⟨-, rfl⟩ | ⟨_, _, idx, ⟨⟩, -, rfl, rfl⟩
      · simp [Flusher.step, hst, hr] at hs
      obtain ⟨-, hjno⟩ := hok j (List.mem_cons_self _ _)
      refine ⟨fun s hs' => ?_, fun x hx => ?_⟩
      · have hsj : s ≠ j := fun h' => by subst h'; simp [removeSegmentIfPossible] at hs'
        have hs'' : (S.disk.objects s).isSome := by
          simpa [removeSegmentIfPossible, hsj] using hs'
        rcases hcl.stored s hs'' with ha | hb | ⟨hreg, hinst, hno, hc⟩
        · exact .inl ha
        · exact .inr (.inl (hkeep hb fun hP => absurd hP (hnotup hnu)))
        · refine .inr (.inr ⟨List.mem_filter.mpr ⟨hreg, by simpa using hsj⟩, hinst, hno,
            hkeep hc fun hP => ⟨_, List.mem_singleton_self _, ?_⟩⟩)
          simp only [Flusher.Finds, hst, List.mem_cons] at hP ⊢
          exact hP.resolve_left hsj
      · have hxj : x.segment ≠ j := hjno _ _ (ExtentMap.maps_of_mem hx (h.gc.1.pos x hx))
        exact ⟨by simpa [removeSegmentIfPossible, hxj] using (hcl.mapped x hx).1,
          (hcl.mapped x hx).2⟩

/-- Every step keeps the store collected. -/
theorem Collects.step (hcl : S.Collects) (h : S.Inv) (hidx : (listSegments S.disk.index).isSome)
    {a : Action} (hs : S.step lz env a = some S') : S'.Collects := by
  cases a with
  | write data => obtain ⟨_, -, -, rfl⟩ := step_write hs; exact hcl.frame rfl rfl rfl fun _ => id
  | zero rng => obtain ⟨_, -, -, rfl⟩ := step_zero hs; exact hcl.frame rfl rfl rfl fun _ => id
  | replace =>
    obtain ⟨-, hr⟩ := step_replace hs
    split at hr
    · subst hr; exact hcl.frame rfl rfl rfl fun _ => id
    · split_ifs at hr <;> subst hr <;> exact hcl.frame rfl rfl rfl fun _ => id
  | setWhenClear =>
    obtain ⟨_, _, -, -, rfl⟩ := step_setWhenClear hs
    exact hcl.frame rfl rfl rfl fun _ hf => List.mem_append_left _ hf
  | flushStep i =>
    obtain ⟨f, d', f', hi, hf, rfl⟩ := step_flushStep hs
    exact hcl.flushStep h hidx hi hf
  | readStart rng =>
    obtain ⟨_, rfl⟩ := step_readStart hs
    exact hcl.frame rfl rfl rfl fun _ => id
  | readStep i =>
    obtain ⟨_, _, _, rfl⟩ := step_readStep hs
    exact hcl.frame rfl rfl rfl fun _ => id
  | cancel seg =>
    obtain rfl := step_cancel hs
    exact hcl.frame rfl rfl rfl fun _ => id

/-- Every interleaving of valid actions, with ids drawn in increasing order, keeps the store
collected. -/
theorem Collects.run (hcl : S.Collects) (h : S.Inv) (hl : S.Live)
    (henv : ∀ s s', env.nextSeq s = some s' → s < s') {acts : List Action}
    (hacts : ∀ a ∈ acts, a.Valid) (hrun : Sys.run lz env S acts = some S') : S'.Collects := by
  induction acts generalizing S with
  | nil =>
    cases hrun
    exact hcl
  | cons a as ih =>
    obtain ⟨S₁, h₁, hrun⟩ := Option.bind_eq_some.mp hrun
    exact ih (hcl.step h hl.index h₁) (h.step (henv _) (hacts a (List.mem_cons_self _ _)) h₁)
      (hl.step h₁) (fun b hb => hacts b (List.mem_cons_of_mem _ hb)) hrun

end

end Sys

/-- Over every interleaving of valid actions from a new volume, with ids drawn in increasing order,
whenever no flush goroutine is in flight the object store holds exactly the segments the extent
map uses: the cleanups have removed every segment the installs made dead, also when two of them
overlap, and none that an entry uses. -/
theorem run_idle_stores_exactly_mapped {lz : Lz4} {env : WriteEnv}
    (henv : ∀ s s', env.nextSeq s = some s' → s < s') {s0 : SegmentId} {acts : List Action}
    (hacts : ∀ a ∈ acts, a.Valid) {S : Sys} (hrun : Sys.run lz env (Sys.init s0) acts = some S)
    (hidle : S.flushers = []) :
    ∀ s, (S.disk.objects s).isSome ↔ ∃ x ∈ S.disk.lba2pba.entries, x.segment = s := by
  have hcl := (Sys.collects_init s0).run (Sys.inv_init s0) (Sys.live_init s0) henv hacts hrun
  refine fun s => ⟨fun hs => ?_, fun ⟨x, hx, hxs⟩ => hxs ▸ (hcl.mapped x hx).1⟩
  rcases hcl.stored s hs with ha | ⟨f, hf, -⟩ | ⟨-, -, -, f, hf, -⟩
  · exact ha
  all_goals
    rw [hidle] at hf
    cases hf

/-- The race of a read with the cleanup, its second goroutine run to its end: segment 0 is
removed, and the store holds segment 1 alone. -/
theorem run_idle_stores_exactly_mapped_after_gcRace :
    (∀ s s', countingEnv.nextSeq s = some s' → s < s') ∧
      (∀ a ∈ gcRace ++ [.flushStep 0], a.Valid) ∧
      ∃ S, Sys.run Lz4.never countingEnv (Sys.init 0) (gcRace ++ [.flushStep 0]) = some S ∧
        S.flushers = [] ∧
        ∀ s, (S.disk.objects s).isSome ↔ ∃ x ∈ S.disk.lba2pba.entries, x.segment = s := by
  have hacts : ∀ a ∈ gcRace ++ [.flushStep 0], a.Valid := fun a ha => by
    rcases List.mem_append.mp ha with ha | ha
    · exact gcRace_valid a ha
    · rw [List.mem_singleton.mp ha]
      trivial
  obtain ⟨S, hrun⟩ : ∃ S, Sys.run Lz4.never countingEnv (Sys.init 0) (gcRace ++ [.flushStep 0]) =
      some S := Option.isSome_iff_exists.mp (by rfl)
  have hidle : (Sys.run Lz4.never countingEnv (Sys.init 0) (gcRace ++ [.flushStep 0])).any
      (fun S => S.flushers.isEmpty) = true := by rfl
  rw [hrun, Option.any_some, List.isEmpty_iff] at hidle
  exact ⟨countingEnv_increasing, hacts, S, hrun, hidle,
    run_idle_stores_exactly_mapped countingEnv_increasing hacts hrun hidle⟩

/-- Over every interleaving of valid actions from a new volume, with an id to draw and a creator
made at each seal and one more for the close, `Close` can run to its end from every state where the
writer is between operations, no goroutine still in `Flush` has a done `ctx`, and the close's own
`ctx` is not done: with the flush goroutines run to their ends, its `closeSegmentAsync` replaces
the creator and passes `SetWhenClear`, and its goroutine, run to its end, uploads and installs the
sealed creator. The disk is then left with an empty current creator, none in the previous cache,
no goroutine, and the map and the segments alone showing every acknowledged write. -/
theorem run_close_stores_acked {lz : Lz4} (hlz : lz.Inverts) {env : WriteEnv} {s0 : SegmentId}
    {acts : List Action} (hacts : ∀ a ∈ acts, a.Valid)
    (hrel : reliable env s0 (acts.length + 1) = true) {S : Sys}
    (hrun : Sys.run lz env (Sys.init s0) acts = some S) (hheld : S.held = none)
    (hctx : ∀ f ∈ S.flushers, f.stage = .flush → f.segId ∉ S.cancelled)
    (hclose : S.disk.curSeq ∉ S.cancelled) :
    ∃ steps₁ steps₂ S', (∀ a ∈ steps₁ ++ steps₂, ∃ i, a = Action.flushStep i) ∧
      Sys.run lz env S (steps₁ ++ [.replace, .setWhenClear] ++ steps₂) = some S' ∧
      S'.flushers = [] ∧ S'.held = none ∧ S'.disk.curOC = some {} ∧ S'.disk.prevCache = none ∧
      ∀ l, S'.disk.storeView lz l = S.acked l := by
  obtain ⟨hg, hrel₀⟩ := (Sys.safe_init lz s0).run hlz hacts 1 hrel hrun
  -- The goroutines run to their ends.
  obtain ⟨steps₁, S₁, hsteps₁, hrun₁, hl₁, hnil₁, hc₁', hheld₁⟩ := Sys.drains _ S rfl
    ((Sys.live_init s0).run hrun) fun f hf => Flusher.stuck_eq_false (hctx f hf)
  obtain ⟨h₁, hc₁, hack₁, -, -, hseq₁⟩ := Sys.flushSteps_keep hg.inv hg.coherent hsteps₁ hrun₁
  obtain ⟨oc, hoc, -⟩ := hc₁.cur
  -- The writer replaces the creator under the id it draws.
  have hrel₁ : reliable env S₁.disk.curSeq 1 = true := hseq₁ ▸ hrel₀
  obtain ⟨seq, hseq, -, hok, -⟩ := reliable_succ.mp hrel₁
  have hs₂ : S₁.step lz env .replace = some { S₁ with
      disk := { S₁.disk with curOC := some {}, curSeq := seq }
      held := some (S₁.disk.curOC, S₁.disk.curSeq) } := by
    simp [Sys.step, hheld₁, hheld, replaceCreator_eq, hseq, hok]
  -- `SetWhenClear` finds the previous cache empty and starts the goroutine.
  have hprev₁ := hl₁.prevCache_eq_none hnil₁
  have hs₃ : Sys.step lz env { S₁ with
      disk := { S₁.disk with curOC := some {}, curSeq := seq }
      held := some (S₁.disk.curOC, S₁.disk.curSeq) } .setWhenClear = some { S₁ with
      disk := { S₁.disk with curOC := some {}, curSeq := seq, prevCache := some oc }
      held := none
      flushers := S₁.flushers ++ [⟨oc, S₁.disk.curSeq, .flush⟩] } := by
    simp [Sys.step, hoc, Disk.setWhenClear, hprev₁]
  have h₂ := h₁.replace (Sys.lt_of_reliable hrel₁) hs₂
  have hc₂ := (hc₁.replace hseq hok hs₂).1
  -- The close's goroutine, under a `ctx` not done, runs to its end.
  have hns : ∀ f ∈ S₁.flushers ++ [⟨oc, S₁.disk.curSeq, .flush⟩], f.stuck S₁.cancelled = false := by
    intro f hf
    rw [hnil₁, List.nil_append, List.mem_singleton] at hf
    subst hf
    exact Flusher.stuck_eq_false fun _ => hseq₁ ▸ hc₁' ▸ hclose
  obtain ⟨steps₂, S', hsteps₂, hrun₂, hl', hnil', -, hheld'⟩ :=
    Sys.drains _ _ rfl ((hl₁.step hs₂).step hs₃) hns
  obtain ⟨-, hc', hack', hcur', -⟩ :=
    Sys.flushSteps_keep (h₂.setWhenClear hs₃) (hc₂.setWhenClear h₂ hs₃) hsteps₂ hrun₂
  have hprev' := hl'.prevCache_eq_none hnil'
  refine ⟨steps₁, steps₂, S', fun a ha => ?_, ?_, hnil', hheld', hcur', hprev', fun l => ?_⟩
  · rcases List.mem_append.mp ha with ha | ha
    · exact hsteps₁ a ha
    · exact hsteps₂ a ha
  · rw [Sys.run_append, Sys.run_append, hrun₁, Option.some_bind]
    simp only [Sys.run, hs₂, hs₃, Option.some_bind]
    exact hrun₂
  · rw [← congrFun (Sys.view_of_closed hcur' hheld' hprev') l, hc'.view, hack']
    exact congrFun hack₁ l

/-- Block 0 written, then `Close`: the map and the segment alone hold the block. -/
theorem run_close_stores_acked_after_write :
    Lz4.never.Inverts ∧ (∀ a ∈ [Action.write ⟨⟨0, 1⟩, onesBlock⟩], a.Valid) ∧
      reliable countingEnv 0 ([Action.write ⟨⟨0, 1⟩, onesBlock⟩].length + 1) = true ∧
      ∃ S, Sys.run Lz4.never countingEnv (Sys.init 0) [.write ⟨⟨0, 1⟩, onesBlock⟩] = some S ∧
        S.held = none ∧ (∀ f ∈ S.flushers, f.stage = .flush → f.segId ∉ S.cancelled) ∧
        S.disk.curSeq ∉ S.cancelled ∧
        ∃ steps₁ steps₂ S', (∀ a ∈ steps₁ ++ steps₂, ∃ i, a = Action.flushStep i) ∧
          Sys.run Lz4.never countingEnv S (steps₁ ++ [.replace, .setWhenClear] ++ steps₂) =
            some S' ∧ S'.flushers = [] ∧ S'.held = none ∧ S'.disk.curOC = some {} ∧
          S'.disk.prevCache = none ∧ ∀ l, S'.disk.storeView Lz4.never l = S.acked l := by
  have hacts : ∀ a ∈ [Action.write ⟨⟨0, 1⟩, onesBlock⟩], a.Valid := by
    simp [Action.Valid, RangeData.Wf, onesBlock]
  have hrel : reliable countingEnv 0 ([Action.write ⟨⟨0, 1⟩, onesBlock⟩].length + 1) = true := by
    decide
  have hctx : ∀ f ∈ ([] : List Flusher), f.stage = .flush → f.segId ∉ ([] : List SegmentId) :=
    nofun
  have hclose : (0 : SegmentId) ∉ ([] : List SegmentId) := List.not_mem_nil _
  exact ⟨Lz4.never_inverts, hacts, hrel, _, rfl, rfl, hctx, hclose,
    run_close_stores_acked Lz4.never_inverts hacts hrel rfl rfl hctx hclose⟩

end Disk

end Lsvd
