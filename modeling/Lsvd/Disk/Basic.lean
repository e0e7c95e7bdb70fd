import Lsvd.ExtentMap
import Lsvd.ObjectIndex

/-!
# The disk's state

`Disk` keeps the fields of `disk.go`'s `Disk` that the read and write paths use: the current
creator (`nil` is `none`), the id it will flush under, the previous creator held in
`PreviousCache`, the extent map, the segment registry, the extent cache, the open-segment LRU, and
the object store behind `sa`: the segments uploaded and the volume's object index.

The reads the read path makes of the store are `SegmentReads`: whether `OpenSegment` succeeds,
and what `ReadAt` returns. `s3Reads` is what `S3Access` does over the objects stored. Errors are
`ReadError`, one constructor per error `ReadExtent` returns, with Go's message.
-/

namespace Lsvd

/-- Modelled from the spec: the on-disk `ExtentCache`, raw extent bytes keyed by segment,
offset and size. -/
structure ExtentCache where
  entries : List ((SegmentId × ℕ × ℕ) × List UInt8) := []
deriving DecidableEq, Repr

namespace ExtentCache

/-- The key of a location in the cache. -/
def key (loc : ExtentLocation) : SegmentId × ℕ × ℕ := (loc.segment, loc.offset, loc.size)

/-- Modelled from the spec: `ReadExtent(pe, dst)`, the cached bytes if found. -/
def readExtent (c : ExtentCache) (loc : ExtentLocation) : Option (List UInt8) :=
  c.entries.lookup (key loc)

/-- Modelled from the spec: `WriteExtent(pe, data)`. -/
def writeExtent (c : ExtentCache) (loc : ExtentLocation) (data : List UInt8) : ExtentCache :=
  ⟨(key loc, data) :: c.entries⟩

theorem readExtent_writeExtent (c : ExtentCache) (loc loc' : ExtentLocation) (data : List UInt8) :
    (c.writeExtent loc data).readExtent loc' =
      if key loc' = key loc then some data else c.readExtent loc' := by
  simp only [readExtent, writeExtent, List.lookup_cons]
  split <;> simp_all [beq_iff_eq]

end ExtentCache

/-- `openSegments.Get(seg)`: whether the segment is open, and the cache with it made the most
recently used. -/
def lruGet (c : List SegmentId) (seg : SegmentId) : Bool × List SegmentId :=
  if seg ∈ c then (true, seg :: c.erase seg) else (false, c)

/-- `openSegments.Add(seg, reader)`: the segment made the most recently used, and the least
recently used evicted past the capacity of 256. -/
def lruAdd (c : List SegmentId) (seg : SegmentId) : List SegmentId := (seg :: c.erase seg).take 256

/-- What the read path asks of the segment store: whether `OpenSegment(seg)` succeeds, and what
`ReadAt` of `n` bytes at `off` on an open segment returns: the bytes read, or an error. -/
structure SegmentReads where
  openSegment : SegmentId → Bool
  readAt : SegmentId → ℕ → ℕ → Option (List UInt8)

/-- `S3Access.OpenSegment` and `S3ObjectReader.ReadAt` over the stored objects: `HeadObject`
fails on a missing object; the range `GetObject` fails on a missing object or a range that starts
past its end, and `io.ReadFull` then returns the bytes of the range, fewer at the end of the
object, with no error. -/
def s3Reads (objects : SegmentId → Option (List UInt8)) : SegmentReads where
  openSegment seg := (objects seg).isSome
  readAt seg off n := (objects seg).bind fun bs => if off < bs.length then some (bytesAt bs off n)
    else none

/-- `Disk`, with the fields the read and write paths use. -/
structure Disk where
  curOC : Option SegmentCreator
  curSeq : SegmentId
  prevCache : Option SegmentCreator
  lba2pba : ExtentMap
  s : Segments
  extentCache : ExtentCache
  openSegments : List SegmentId
  /-- The segments in the object store (`objects/object.<id>`). -/
  objects : SegmentId → Option (List UInt8)
  /-- The volume's object index (`volumes/<vol>/objects`). -/
  index : Option (List UInt8)

/-- The errors `ReadExtent` returns, and the panic of a call on a `nil` creator. -/
inductive ReadError
  /-- A call through `d.curOC` when it is `nil`: a nil-pointer panic. -/
  | nilCreator
  /-- `FillExtent` failed. -/
  | fillExtent
  /-- "internal error calculating remaining extents" -/
  | remaining
  /-- "error calculating subrange" -/
  | subrange
  /-- "error subtracting partial holes" -/
  | partialHoles
  /-- `OpenSegment`'s error. -/
  | openSegment (seg : SegmentId)
  /-- "short read detected" -/
  | shortRead
  /-- "error uncompressing data (rawsize: %d, compdata: %d)" -/
  | uncompress (rawsize compdata : ℕ)
  /-- "failed to uncompress correctly" -/
  | uncompressSize
  /-- "unknown flags value: %d" -/
  | unknownFlags (flags : UInt8)
  /-- "error clamping range" -/
  | clampRange
  /-- "error clamping range: %s => %s" -/
  | clampDest (usable overlap : Extent)
  /-- "error calculate source subrange" -/
  | sourceSubrange
deriving DecidableEq, Repr

/-- A successful step of an `Except` computation passes its value on. -/
@[simp] theorem ok_bind {ε α β : Type} (a : α) (f : α → Except ε β) :
    (Except.ok a >>= f) = f a := rfl

/-- A failed step of an `Except` computation stops it. -/
@[simp] theorem error_bind {ε α β : Type} (e : ε) (f : α → Except ε β) :
    (Except.error e >>= f) = Except.error e := rfl

/-- A step of an `Except` computation that succeeds passes on the value it succeeded with. -/
theorem bind_eq_ok {ε α β : Type} {x : Except ε α} {f : α → Except ε β} {b : β} :
    (x >>= f) = .ok b ↔ ∃ a, x = .ok a ∧ f a = .ok b := by
  cases x <;> simp

end Lsvd
