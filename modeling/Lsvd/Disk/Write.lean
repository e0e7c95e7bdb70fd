import Lsvd.Disk.Read

/-!
# The write path and the seal

`zeroBlocks`, `writeExtent` and `writeExtents` are `Disk.ZeroBlocks`, `Disk.WriteExtent` and
`Disk.WriteExtents`: the blocks go to the current creator, and a creator whose body has reached
`FlushThreshHold` is sealed. `closeSegmentAsync` is the writer's part of a seal: the creator and
its id are taken, `d.curOC` is replaced by what `newSegmentCreator` returns, the old creator goes
to `PreviousCache` once it is clear, and a goroutine flushes it. The goroutine's work is
`flushSegment`: upload (`flushUpload`), register (`create`), install the batch (`install`),
clear the previous cache (`clearPrev`), then `cleanupDeletedSegments`.

The environment of the writer is `WriteEnv`: the next sequence number, drawn from the last,
which may fail, and whether `NewSegmentCreator` succeeds. `Op` lists what the single writer and
the readers do, and `run` runs a list of them with each seal's flush run to its end before the
next operation, as the refinement in `Lsvd.Refinement` assumes.

`closeSegmentAsync_error` says what a failed `newSegmentCreator` leaves: no current creator, the
sealed one in no layer, and `curSeq` already moved on when `NewSegmentCreator` is what failed.
-/

namespace Lsvd

/-- What the writer asks of its environment: the next sequence number after the last one drawn
(`nextSeq`, `none` when it fails), and whether `NewSegmentCreator` succeeds for an id. -/
structure WriteEnv where
  nextSeq : SegmentId → Option SegmentId
  createOk : SegmentId → Bool

/-- The errors of the write path, and the panic of a call on a `nil` creator. -/
inductive WriteError
  /-- A call through a `nil` creator: a nil-pointer panic. -/
  | nilCreator
  /-- "error generating sequence number" -/
  | nextSeq
  /-- `NewSegmentCreator`'s error. -/
  | newSegmentCreator
  /-- `RemoveSegmentFromVolume`'s error for a dead segment. -/
  | removeSegmentFromVolume (seg : SegmentId)
deriving DecidableEq, Repr

namespace Disk

/-! ## Sealing -/

/-- `newSegmentCreator()`: a new creator under the next sequence number, which goes to
`d.curSeq` before `NewSegmentCreator` runs. -/
def newSegmentCreator (env : WriteEnv) (d : Disk) : Disk × Except WriteError SegmentCreator :=
  match env.nextSeq d.curSeq with
  | none => (d, .error .nextSeq)
  | some seq =>
    if env.createOk seq then ({ d with curSeq := seq }, .ok {})
    else ({ d with curSeq := seq }, .error .newSegmentCreator)

/-- `closeSegmentAsync`'s first steps: `segId := d.curSeq`, `oc := d.curOC`, and
`d.curOC, err = d.newSegmentCreator()`, which sets `d.curOC` to `nil` when it fails. -/
def replaceCreator (env : WriteEnv) (d : Disk) :
    Disk × Except WriteError (Option SegmentCreator × SegmentId) :=
  match newSegmentCreator env d with
  | (d', .error e) => ({ d' with curOC := none }, .error e)
  | (d', .ok noc) => ({ d' with curOC := some noc }, .ok (d.curOC, d.curSeq))

/-- `prevCache.SetWhenClear(oc)`: `none` while the slot is full, for it waits. -/
def setWhenClear (d : Disk) (oc : Option SegmentCreator) : Option Disk :=
  match d.prevCache with
  | none => some { d with prevCache := oc }
  | some _ => none

/-- `closeSegmentAsync()`, the writer's part: the creator replaced, then `SetWhenClear`; on
success, the creator and the id the goroutine flushes. `none` while `SetWhenClear` waits. -/
def closeSegmentAsync (env : WriteEnv) (d : Disk) :
    Option (Disk × Except WriteError (Option SegmentCreator × SegmentId)) :=
  match replaceCreator env d with
  | (d', .error e) => some (d', .error e)
  | (d', .ok (oc, segId)) => (setWhenClear d' oc).map fun d'' => (d'', .ok (oc, segId))

/-! ## The flush goroutine -/

/-- Modelled from the spec: `oc.Flush(sa, segId)` when it succeeds: the segment uploaded and
its id appended to the volume's object index (`AppendToObjects`), with the locations and stats
it returns. `none` when the index cannot be listed, on which `Flush` is retried for ever. -/
def flushUpload (d : Disk) (oc : SegmentCreator) (segId : SegmentId) :
    Option (Disk × List ExtentLocation × SegmentStats) :=
  (appendToObjects d.index segId).map fun idx =>
    ({ d with
      objects := fun s => if s = segId then some (oc.flush segId).1 else d.objects s
      index := some idx }, (oc.flush segId).2)

/-- `d.s.Create(segId, stats)`. -/
def create (d : Disk) (segId : SegmentId) (stats : SegmentStats) : Disk :=
  { d with s := d.s.create segId stats }

/-- `d.lba2pba.UpdateBatch(entries, segId, d.s)`. -/
def install (d : Disk) (entries : List ExtentLocation) (segId : SegmentId) : Disk :=
  { d with
    lba2pba := (d.lba2pba.updateBatch entries segId d.s).1
    s := (d.lba2pba.updateBatch entries segId d.s).2 }

/-- `d.prevCache.Clear()`. -/
def clearPrev (d : Disk) : Disk := { d with prevCache := none }

/-- Modelled from the spec: `removeSegmentIfPossible(seg)`: the segment's object deleted
(`RemoveSegment`) and the segment purged from the registry. -/
def removeSegmentIfPossible (d : Disk) (seg : SegmentId) : Disk :=
  { d with objects := fun s => if s = seg then none else d.objects s, s := d.s.purge seg }

/-- The loop of `cleanupDeletedSegments`: each dead segment removed from the volume's index, then
removed; the first error ends it. -/
def removeDeleted : Disk → List SegmentId → Disk × Except WriteError Unit
  | d, [] => (d, .ok ())
  | d, i :: is =>
    match removeSegmentFromVolume d.index i with
    | none => (d, .error (.removeSegmentFromVolume i))
    | some idx => removeDeleted (removeSegmentIfPossible { d with index := some idx } i) is

/-- `cleanupDeletedSegments()`. -/
def cleanupDeletedSegments (d : Disk) : Disk × Except WriteError Unit :=
  removeDeleted d d.s.findDeleted

/-- The flush goroutine run to its end; the error of the cleanup is only logged. `none` when
`Flush` is retried for ever. -/
def flushSegment (d : Disk) (oc : SegmentCreator) (segId : SegmentId) : Option Disk :=
  (flushUpload d oc segId).map fun r =>
    (cleanupDeletedSegments (((r.1.create segId r.2.2).install r.2.1 segId).clearPrev)).1

/-! ## The writer's operations -/

/-- A seal with its goroutine run to the end: `none` when it never returns. -/
def sealAndFlush (env : WriteEnv) (d : Disk) : Option (Disk × Except WriteError Unit) :=
  match closeSegmentAsync env d with
  | none => none
  | some (d', .error e) => some (d', .error e)
  | some (d', .ok (none, _)) => some (d', .error .nilCreator)
  | some (d', .ok (some oc, segId)) => (flushSegment d' oc segId).map fun d'' => (d'', .ok ())

/-- The threshold check that ends `WriteExtent` and `WriteExtents`. -/
def sealIfFull (env : WriteEnv) (d : Disk) (oc : SegmentCreator) :
    Option (Disk × Except WriteError Unit) :=
  if FlushThreshHold ≤ oc.bodySize then sealAndFlush env { d with curOC := some oc }
  else some ({ d with curOC := some oc }, .ok ())

/-- `ZeroBlocks(rng)`. -/
def zeroBlocks (d : Disk) (rng : Extent) : Disk × Except WriteError Unit :=
  match d.curOC with
  | none => (d, .error .nilCreator)
  | some oc => ({ d with curOC := some (oc.zeroBlocks rng) }, .ok ())

/-- `WriteExtent(data)`, a seal's flush run to its end. -/
def writeExtent (lz : Lz4) (env : WriteEnv) (d : Disk) (data : RangeData) :
    Option (Disk × Except WriteError Unit) :=
  match d.curOC with
  | none => some (d, .error .nilCreator)
  | some oc => sealIfFull env d (oc.writeExtent lz data)

/-- `WriteExtents(ranges)`: every range to the current creator, one threshold check. -/
def writeExtents (lz : Lz4) (env : WriteEnv) (d : Disk) (ranges : List RangeData) :
    Option (Disk × Except WriteError Unit) :=
  match d.curOC with
  | none => some (d, .error .nilCreator)
  | some oc => sealIfFull env d (ranges.foldl (SegmentCreator.writeExtent lz) oc)

/-- `Close()`: `CloseSegment`, which waits for the seal's flush, then, if it succeeded, the open
segments purged. `saveLBAMap` and the extent cache's `Close` are not among the sources and are
left out. -/
def close (env : WriteEnv) (d : Disk) : Option (Disk × Except WriteError Unit) :=
  (sealAndFlush env d).map fun r => match r.2 with
    | .error e => (r.1, .error e)
    | .ok () => ({ r.1 with openSegments := [] }, .ok ())

/-- What the single writer and the readers do. -/
inductive Op
  | writeExtent (data : RangeData)
  | writeExtents (ranges : List RangeData)
  | zeroBlocks (rng : Extent)
  | closeSegment
  | readExtent (rng : Extent)

/-- One operation on the disk, on the objects the store holds; the disk it leaves, or `none`
when it never returns. An error leaves the disk as the operation left it. -/
def step (lz : Lz4) (env : WriteEnv) (d : Disk) : Op → Option Disk
  | .writeExtent data => (writeExtent lz env d data).map (·.1)
  | .writeExtents ranges => (writeExtents lz env d ranges).map (·.1)
  | .zeroBlocks rng => some (zeroBlocks d rng).1
  | .closeSegment => (sealAndFlush env d).map (·.1)
  | .readExtent rng =>
    match readExtent lz (s3Reads d.objects) d rng with
    | .ok (_, d') => some d'
    | .error _ => some d

/-- Operations one after another. -/
def run (lz : Lz4) (env : WriteEnv) : Disk → List Op → Option Disk
  | d, [] => some d
  | d, op :: ops => (step lz env d op).bind fun d' => run lz env d' ops

/-! ## What a seal does -/

/-- A seal whose next id is drawn and whose creator is made, with the previous cache clear, hands
the creator and its id to the goroutine, the creator also in the previous cache, and leaves an
empty creator under the new id. -/
theorem closeSegmentAsync_ok {env : WriteEnv} {d : Disk} {seq : SegmentId}
    (hseq : env.nextSeq d.curSeq = some seq) (hok : env.createOk seq = true)
    (hprev : d.prevCache = none) :
    closeSegmentAsync env d = some ({ d with curOC := some {}, curSeq := seq, prevCache := d.curOC },
      .ok (d.curOC, d.curSeq)) := by
  simp [closeSegmentAsync, replaceCreator, newSegmentCreator, setWhenClear, hseq, hok, hprev]

/-- What the writer's replacing of the creator leaves, by the outcome of `nextSeq` and of
`NewSegmentCreator`. -/
theorem replaceCreator_eq (env : WriteEnv) (d : Disk) :
    replaceCreator env d = match env.nextSeq d.curSeq with
      | none => ({ d with curOC := none }, .error .nextSeq)
      | some seq => if env.createOk seq
        then ({ d with curOC := some {}, curSeq := seq }, .ok (d.curOC, d.curSeq))
        else ({ d with curOC := none, curSeq := seq }, .error .newSegmentCreator) := by
  unfold replaceCreator newSegmentCreator
  cases env.nextSeq d.curSeq with
  | none => rfl
  | some seq => by_cases h : env.createOk seq <;> simp [h]

/-! ## A failed `newSegmentCreator` -/

/-- When `newSegmentCreator` fails, `closeSegmentAsync` returns its error with no current
creator, the previous cache as it was, and `curSeq` the id drawn when it is `NewSegmentCreator`
that failed: the creator it was sealing is in no layer. -/
theorem closeSegmentAsync_error (env : WriteEnv) (d : Disk) :
    (env.nextSeq d.curSeq = none →
      closeSegmentAsync env d = some ({ d with curOC := none }, .error .nextSeq)) ∧
    ∀ seq, env.nextSeq d.curSeq = some seq → env.createOk seq = false →
      closeSegmentAsync env d =
        some ({ d with curOC := none, curSeq := seq }, .error .newSegmentCreator) := by
  refine ⟨fun h => ?_, fun seq h hc => ?_⟩
  · simp [closeSegmentAsync, replaceCreator, newSegmentCreator, h]
  · simp [closeSegmentAsync, replaceCreator, newSegmentCreator, h, hc]

/-- A store whose sequence numbers have run out. -/
def exhaustedEnv : WriteEnv := ⟨fun _ => none, fun _ => true⟩

/-- A block of ones. -/
def onesBlock : Block := List.replicate BlockSize 1

/-- A fresh disk whose current creator holds a block of ones written at block 0. -/
def unsealedDisk : Disk where
  curOC := some (({} : SegmentCreator).writeBlock Lz4.never 0 onesBlock)
  curSeq := 1
  prevCache := none
  lba2pba := {}
  s := {}
  extentCache := {}
  openSegments := []
  objects := fun _ => none
  index := none

/-- `CloseSegment` with no sequence number left returns the error with the written block in no
layer: no current creator, nothing in the previous cache, and every later read or write then
calls through the `nil` creator. -/
theorem closeSegment_drops_written_block :
    ∃ d', sealAndFlush exhaustedEnv unsealedDisk = some (d', .error .nextSeq) ∧
      unsealedDisk.view Lz4.never 0 = onesBlock ∧ d'.curOC = none ∧ d'.prevCache = none ∧
      (∀ lz io rng, d'.readExtent lz io rng = .error .nilCreator) ∧
      ∀ lz env data, d'.writeExtent lz env data = some (d', .error .nilCreator) :=
  have hlook := (SegmentCreator.writeBlock_spec Lz4.never_inverts
    (show ({} : SegmentCreator).Wf Lz4.never from fun _ h => nomatch h) 0
    (show onesBlock.length = BlockSize from List.length_replicate _ _)).2 0
  ⟨_, rfl, by simp only [view, cacheLookup, unsealedDisk, Option.some_bind, hlook, if_true],
    rfl, rfl, fun _ _ _ => rfl, fun _ _ _ => rfl⟩

end Disk

end Lsvd
