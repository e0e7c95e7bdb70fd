import Lsvd.ObjectCreator
import Lsvd.Disk.Basic

/-!
# Reading a compressed block back: `ReadAtCompressed`

The two `ObjectReader`s of the sources read a compressed block the same way: `LocalFile` over a
segment file and `S3ObjectReader` over an object of the store both read `compSize` bytes at `off`
into a zeroed buffer with their own `ReadAt`, uncompress the buffer into `dest` with
`lz4.UncompressBlock`, and fail unless that fills exactly a block. `readAtCompressedWith` is that
code over the reader's `ReadAt`, and each reader's `ReadAtCompressed` is it applied to its own.
They differ only in `ReadAt`: a file's fails when fewer bytes are left than asked for, where the
S3 reader's returns the bytes left without an error, so that it uncompresses them padded with
zeros (`readAtCompressed_past_end`).

`flush_reads_back_compressed` closes the loop of `object.go`: after any run of `WriteExtent`
calls of whole blocks and a successful `Flush`, `ReadAtCompressed` on the file, at the map entry
of an LBA whose block was stored compressed, returns the block last written there. The entry is
that of the last record for the LBA (`Tracks.flush_entry`), and the record's bytes are read back
through the file's layout (`bytesAt_file`) as the block's LZ4 output (`storedAs_compressed`).
-/

namespace Lsvd

/-- The errors of `ReadAtCompressed`. -/
inductive ReadAtCompressedError
  /-- The error of the reader's `ReadAt`. -/
  | readAt
  /-- `lz4.UncompressBlock`'s error: input it cannot decode, or output longer than `dest`. -/
  | uncompressBlock
  /-- "compressed block uncompressed wrong size (%d != %d)", with the size uncompressed. -/
  | wrongSize (sz : ℕ)
deriving DecidableEq, Repr

/-- `sz, err := lz4.UncompressBlock(buf, dest)` and the check of `sz` after it: `len(dest)` and
what `dest` holds then, or the error. -/
def uncompressInto (lz : Lz4) (buf dest : List UInt8) :
    Except ReadAtCompressedError (ℕ × List UInt8) :=
  match lz.uncompressBlock buf with
  | none => .error .uncompressBlock
  | some out =>
    if dest.length < out.length then .error .uncompressBlock
    else if out.length ≠ BlockSize then .error (.wrongSize out.length)
    else .ok (dest.length, out ++ dest.drop out.length)

/-- `ReadAtCompressed(dest, off, compSize)` of a reader whose `ReadAt` of `n` bytes at `off`
returns `readAt off n`, the bytes read or an error: `buf := make([]byte, compSize)`, the read into
it, then the uncompression into `dest`. -/
def readAtCompressedWith (lz : Lz4) (readAt : ℕ → ℕ → Option (List UInt8)) (dest : List UInt8)
    (off compSize : ℕ) : Except ReadAtCompressedError (ℕ × List UInt8) :=
  match readAt off compSize with
  | none => .error .readAt
  | some got => uncompressInto lz (got ++ List.replicate (compSize - got.length) 0) dest

/-- `LocalFile.ReadAt` on a file holding `F`, which is `os.File.ReadAt`: the `n` bytes at `off`,
or `io.EOF` when fewer are left. -/
def LocalFile.readAt (F : List UInt8) (off n : ℕ) : Option (List UInt8) :=
  if off + n ≤ F.length then some (bytesAt F off n) else none

/-- `LocalFile.ReadAtCompressed` on a file holding `F`. -/
def LocalFile.readAtCompressed (lz : Lz4) (F dest : List UInt8) (off compSize : ℕ) :
    Except ReadAtCompressedError (ℕ × List UInt8) :=
  readAtCompressedWith lz (LocalFile.readAt F) dest off compSize

/-- `S3ObjectReader.ReadAtCompressed` on segment `seg` of the store. -/
def S3ObjectReader.readAtCompressed (lz : Lz4) (objects : SegmentId → Option (List UInt8))
    (seg : SegmentId) (dest : List UInt8) (off compSize : ℕ) :
    Except ReadAtCompressedError (ℕ × List UInt8) :=
  readAtCompressedWith lz ((s3Reads objects).readAt seg) dest off compSize

/-- A read that returns the LZ4 output of a whole block in full gives the block back in a
block-sized `dest`, whichever reader made it. -/
theorem readAtCompressedWith_compressBlock {lz : Lz4} (hlz : lz.Inverts)
    {readAt : ℕ → ℕ → Option (List UInt8)} {blk : Block} (hblk : blk.length = BlockSize)
    (hc : lz.compressBlock blk ≠ []) {dest : List UInt8} (hdest : dest.length = BlockSize)
    {off : ℕ} (hread : readAt off (lz.compressBlock blk).length = some (lz.compressBlock blk)) :
    readAtCompressedWith lz readAt dest off (lz.compressBlock blk).length = .ok (BlockSize, blk) := by
  simp [readAtCompressedWith, hread, uncompressInto, hlz blk hc, hblk, hdest]

/-- Where the two readers differ: asked for more bytes than are left past `off` in an object
holding `F`, the file's `ReadAtCompressed` fails in `ReadAt`, while the S3 reader's uncompresses
the bytes left, padded with zeros to `compSize`. -/
theorem readAtCompressed_past_end (lz : Lz4) {objects : SegmentId → Option (List UInt8)}
    {seg : SegmentId} {F : List UInt8} (hobj : objects seg = some F) (dest : List UInt8)
    {off compSize : ℕ} (hoff : off < F.length) (hpast : F.length < off + compSize) :
    LocalFile.readAtCompressed lz F dest off compSize = .error .readAt ∧
      S3ObjectReader.readAtCompressed lz objects seg dest off compSize =
        uncompressInto lz (F.drop off ++ List.replicate (off + compSize - F.length) 0) dest := by
  have hleft : bytesAt F off compSize = F.drop off :=
    List.take_of_length_le (by simp only [List.length_drop]; omega)
  refine ⟨by simp [LocalFile.readAtCompressed, readAtCompressedWith, LocalFile.readAt,
    not_le.mpr hpast], ?_⟩
  simp only [S3ObjectReader.readAtCompressed, readAtCompressedWith, s3Reads, hobj,
    Option.some_bind, if_pos hoff, hleft, List.length_drop]
  congr 3
  omega

/-! ## A flushed block read back -/

/-- A block stored with flags `1` is stored as its LZ4 output, which is not empty. -/
theorem storedAs_compressed {lz : Lz4} {blk : Block} (h : (storedAs lz blk).1 = 1) :
    (storedAs lz blk).2 = lz.compressBlock blk ∧ lz.compressBlock blk ≠ [] := by
  unfold storedAs storeBlock at *
  split_ifs at h ⊢ with he hc
  · exact absurd h (by decide)
  · exact ⟨rfl, List.ne_nil_of_length_pos hc.1⟩
  · exact absurd h (by dsimp only; decide)

/-- The block last written at an LBA is one of the blocks written. -/
theorem mem_of_lastWritten {ws : List (ℕ × Block)} {l : ℕ} {blk : Block}
    (h : lastWritten ws l = some blk) : (l, blk) ∈ ws := by
  obtain ⟨w, hw, rfl⟩ := Option.map_eq_some'.mp h
  have hl : w.1 = l := by simpa using List.find?_some hw
  exact hl ▸ List.mem_reverse.mp (List.mem_of_find?_eq_some hw)

/-- After a flush of the blocks a creator tracks, the map's entry for an LBA last written with
`blk` is that of a record whose slice of the body is how `blk` is stored. -/
theorem Tracks.flush_entry {lz : Lz4} {o : ObjectCreator} {ws : List (ℕ × Block)}
    (ht : Tracks lz o ws) (seg : SegmentId) (m : LbaMap) {l : ℕ} {blk : Block}
    (hl : lastWritten ws l = some blk) :
    ∃ b, (o.flush seg m none).2.1 l = some (o.pba seg b) ∧ b.offset + b.size ≤ o.body.length ∧
      (b.flags, bytesAt o.body b.offset b.size) = storedAs lz blk := by
  have hrel : Option.Rel _ (o.blocks.reverse.find? (·.lba = l)) (ws.reverse.find? (·.1 = l)) :=
    forall₂_find (fun b w h => by simp [h.1]) (List.forall₂_reverse_iff.mpr ht.records)
  simp only [ObjectCreator.flush, foldl_set_apply]
  unfold lastWritten at hl
  revert hl
  revert hrel
  generalize o.blocks.reverse.find? (·.lba = l) = ob
  generalize ws.reverse.find? (·.1 = l) = ow
  intro hrel hl
  cases hrel with
  | none => cases hl
  | some hbw =>
    rename_i b w
    obtain ⟨-, hle, hst⟩ := hbw
    cases hl
    exact ⟨b, rfl, hle, hst⟩

/-- After any run of `WriteExtent` calls of whole blocks on a fresh creator and a successful
`Flush` to a file below `2^32` bytes, `LocalFile.ReadAtCompressed` on the file, at the map entry
of any LBA written whose block was stored compressed, into a block-sized `dest`, returns the
block last written there. -/
theorem flush_reads_back_compressed {lz : Lz4} (hlz : lz.Inverts) (calls : List (ℕ × List Block))
    (hblocks : ∀ w ∈ callBlocks calls, w.2.length = BlockSize) (seg : SegmentId) (m : LbaMap)
    {o' : ObjectCreator} {m' : LbaMap} {F : List UInt8}
    (hflush : (ObjectCreator.writeExtents lz {} calls).flush seg m none = (o', m', .ok F))
    (hF : F.length < 2 ^ 32) {l : ℕ} {blk : Block}
    (hl : lastWritten (callBlocks calls) l = some blk) {p : ObjPBA} (hp : m' l = some p)
    (hc : p.flags = 1) {dest : List UInt8} (hdest : dest.length = BlockSize) :
    LocalFile.readAtCompressed lz F dest p.offset p.size = .ok (BlockSize, blk) := by
  obtain ⟨b, hb, hle, hst⟩ := (tracks_writeExtents lz calls).flush_entry seg m hl
  set o := ObjectCreator.writeExtents lz {} calls
  have hm' : m' = (o.flush seg m none).2.1 := by rw [hflush]
  have hF' : F = o.file := by
    simp only [ObjectCreator.flush, Prod.mk.injEq, Except.ok.injEq] at hflush
    exact hflush.2.2.symm
  rw [hm', hb, Option.some.injEq] at hp
  subst hp hF'
  rw [pba_eq seg hle hF] at hc ⊢
  obtain ⟨hcomp, hne⟩ := storedAs_compressed ((congrArg Prod.fst hst).symm.trans hc)
  -- The record's slice of the body is the block's LZ4 output, in full.
  have hbytes : bytesAt o.body b.offset b.size = lz.compressBlock blk :=
    (congrArg Prod.snd hst).trans hcomp
  have hsize : b.size = (lz.compressBlock blk).length := by
    rw [← hbytes, length_bytesAt]
    omega
  have hfile : o.file.length = o.flushHeader.length + 8 + o.body.length := by
    simp [ObjectCreator.file, length_putBE]
    omega
  rw [hsize]
  refine readAtCompressedWith_compressBlock hlz (hblocks _ (mem_of_lastWritten hl)) hne hdest ?_
  dsimp only
  rw [LocalFile.readAt, if_pos (by omega), bytesAt_file, ← hsize, hbytes]

/-- The creator after the block of ones written at LBA 7. -/
def ObjectCreator.onesAtSeven : ObjectCreator :=
  ObjectCreator.writeExtents Lz4.onesOnly {} [(7, [List.replicate BlockSize 1])]

/-- What `WriteExtent` makes of the block of ones under `Lz4.onesOnly`: one record, compressed
to one byte. The block is compared with another only by rewriting, never by evaluation. -/
theorem onesAtSeven_eq : ObjectCreator.onesAtSeven = ⟨1, 1, [⟨7, 1, 1, 0⟩], [], [1]⟩ := by
  have hcalls : callBlocks [(7, [List.replicate BlockSize (1 : UInt8)])] =
      [(7, List.replicate BlockSize 1)] := rfl
  rw [ObjectCreator.onesAtSeven, writeExtents_eq_writeAll, hcalls, ObjectCreator.writeAll,
    List.foldl_cons, List.foldl_nil, ObjectCreator.writeBlock, if_neg ones_ne_emptyBlock,
    storeBlock, Lz4.onesOnly_compress_ones, if_pos (by simp [BlockSize])]
  rfl

/-- The block of ones, flushed to segment `0`, is read back compressed from offset 12. -/
theorem flush_reads_back_compressed_onesAtSeven :
    Lz4.onesOnly.Inverts ∧
      (∀ w ∈ callBlocks [(7, [List.replicate BlockSize 1])], w.2.length = BlockSize) ∧
      ObjectCreator.onesAtSeven.file.length < 2 ^ 32 ∧
      lastWritten (callBlocks [(7, [List.replicate BlockSize 1])]) 7 =
        some (List.replicate BlockSize 1) ∧
      (ObjectCreator.onesAtSeven.flush 0 (fun _ => none) none).2.1 7 = some ⟨0, 12, 1, 1⟩ ∧
      LocalFile.readAtCompressed Lz4.onesOnly ObjectCreator.onesAtSeven.file emptyBlock 12 1 =
        .ok (BlockSize, List.replicate BlockSize 1) := by
  have hblocks : ∀ w ∈ callBlocks [(7, [List.replicate BlockSize 1])],
      w.2.length = BlockSize := by
    simp [callBlocks, extentBlocks]
  have hF : ObjectCreator.onesAtSeven.file.length < 2 ^ 32 := by
    rw [onesAtSeven_eq]
    decide
  have hl : lastWritten (callBlocks [(7, [List.replicate BlockSize 1])]) 7 =
      some (List.replicate BlockSize 1) := rfl
  have hp : (ObjectCreator.onesAtSeven.flush 0 (fun _ => none) none).2.1 7 =
      some ⟨0, 12, 1, 1⟩ := by
    rw [onesAtSeven_eq]
    decide
  exact ⟨Lz4.onesOnly_inverts, hblocks, hF, hl, hp,
    flush_reads_back_compressed Lz4.onesOnly_inverts _ hblocks 0 (fun _ => none) rfl hF hl hp rfl
      (by simp [emptyBlock])⟩

end Lsvd
