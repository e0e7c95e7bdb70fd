import Lsvd.Basic

/-!
# `ObjectCreator`: the segment writer of `object.go`

`writeExtent` turns each block of an extent into a header record (`OcBlock`) and, unless the block
is all zero, its stored bytes in the body: LZ4-compressed when that is shorter than a block, raw
otherwise. `flush` serialises the records and the body into one file, records each block's
location in the LBA map, and resets the creator on every exit (`defer o.Reset()`).

`Tracks` says what the creator holds after a run of writes: one record per block written, in
order, each locating a slice of the body that decodes to that block. Writes keep it
(`Tracks.writeBlock`); from it, a successful flush maps every written LBA to the file slice that
decodes to the block last written there (`flush_maps_last_written`).

`Flush` sets the map before it creates the file, and resets the creator on every exit. So a flush
that fails at `os.Create` or at a write has already pointed the map at a segment no file holds,
and has emptied the creator (`flush_failure_installs`): a retry writes an empty segment.
-/

namespace Lsvd

/-- `ocBlock`: the header record of one block. -/
structure OcBlock where
  lba : ℕ
  flags : UInt8
  size : ℕ
  offset : ℕ
deriving DecidableEq, Repr

/-- `ObjectCreator`, less `buf`, the scratch buffer that each compression overwrites. -/
structure ObjectCreator where
  cnt : ℕ := 0
  offset : ℕ := 0
  blocks : List OcBlock := []
  header : List UInt8 := []
  body : List UInt8 := []
deriving DecidableEq, Repr

/-- What `WriteExtent` stores for a block that is not all zero, with its flags: the LZ4 output
with flags `1` when it is between one and `BlockSize - 1` bytes long, else the block itself with
flags `0`. -/
def storeBlock (lz : Lz4) (blk : Block) : List UInt8 × UInt8 :=
  if 0 < (lz.compressBlock blk).length ∧ (lz.compressBlock blk).length < BlockSize then
    (lz.compressBlock blk, 1)
  else (blk, 0)

/-- One turn of `WriteExtent`'s loop, block `blk` at `lba`: an all-zero block is a record with
flags `2` and nothing in the body; any other block is stored by `storeBlock` at the end of the
body. -/
def ObjectCreator.writeBlock (lz : Lz4) (o : ObjectCreator) (lba : ℕ) (blk : Block) :
    ObjectCreator :=
  if blk = emptyBlock then
    { o with cnt := o.cnt + 1, blocks := o.blocks ++ [⟨lba, 2, 0, 0⟩] }
  else
    { o with
      body := o.body ++ (storeBlock lz blk).1
      cnt := o.cnt + 1
      blocks := o.blocks ++ [⟨lba, (storeBlock lz blk).2, (storeBlock lz blk).1.length, o.offset⟩]
      offset := o.offset + (storeBlock lz blk).1.length }

/-- The blocks of `WriteExtent(firstBlock, ext)` with their LBAs: block `i` goes to
`firstBlock + LBA(i)`, a 64-bit sum. -/
def extentBlocks (firstBlock : ℕ) (ext : List Block) : List (ℕ × Block) :=
  ext.enum.map fun (i, blk) => ((firstBlock + i) % 2 ^ 64, blk)

/-- Blocks written one after another, each at its LBA. -/
def ObjectCreator.writeAll (lz : Lz4) (o : ObjectCreator) (ws : List (ℕ × Block)) :
    ObjectCreator :=
  ws.foldl (fun o w => o.writeBlock lz w.1 w.2) o

/-- `WriteExtent(firstBlock, ext)`, with the extent given as its blocks. It does not fail: the
scratch buffer of `2 * BlockSize` bytes is above LZ4's bound for one block, and a write to a
`bytes.Buffer` does not fail. -/
def ObjectCreator.writeExtent (lz : Lz4) (o : ObjectCreator) (firstBlock : ℕ)
    (ext : List Block) : ObjectCreator :=
  o.writeAll lz (extentBlocks firstBlock ext)

/-- `WriteExtent` calls one after another. -/
def ObjectCreator.writeExtents (lz : Lz4) (o : ObjectCreator) (calls : List (ℕ × List Block)) :
    ObjectCreator :=
  calls.foldl (fun o c => o.writeExtent lz c.1 c.2) o

/-- The blocks that a run of `WriteExtent` calls writes, with their LBAs, in order. -/
def callBlocks (calls : List (ℕ × List Block)) : List (ℕ × Block) :=
  calls.flatMap fun c => extentBlocks c.1 c.2

/-- `Reset`: no records, count, offset, header or body. -/
def ObjectCreator.reset (_ : ObjectCreator) : ObjectCreator := {}

/-- `binary.PutUvarint` of the LBA, the flags byte, and the uvarints of size and offset: the
header record `Flush` writes for a block. -/
def OcBlock.record (b : OcBlock) : List UInt8 :=
  putUvarint b.lba ++ b.flags :: (putUvarint b.size ++ putUvarint b.offset)

/-- `objPBA`: where the LBA map says a flushed block is. -/
structure ObjPBA where
  segment : SegmentId
  offset : ℕ
  flags : UInt8
  size : ℕ
deriving DecidableEq, Repr

/-- The LBA map that `Flush` fills, a `treemap.TreeMap[LBA, objPBA]`, by lookup. -/
abbrev LbaMap := ℕ → Option ObjPBA

/-- `m.Set(lba, p)`. -/
def LbaMap.set (m : LbaMap) (lba : ℕ) (p : ObjPBA) : LbaMap :=
  fun l => if l = lba then some p else m l

/-- The file-system calls of `Flush` that can fail, in the order it makes them. -/
inductive FlushFailure
  /-- `os.Create(path)`. -/
  | create
  /-- `f.Write` of the block count. -/
  | writeCount
  /-- `f.Write` of `dataBegin`. -/
  | writeDataBegin
  /-- `io.Copy` of the header. -/
  | copyHeader
  /-- `io.Copy` of the body. -/
  | copyBody
deriving DecidableEq, Repr

/-- The header of a flush: what the creator's header buffer holds after the records are
appended. -/
def ObjectCreator.flushHeader (o : ObjectCreator) : List UInt8 :=
  o.header ++ (o.blocks.map OcBlock.record).flatten

/-- `dataBegin := uint32(o.header.Len() + 8)`. -/
def ObjectCreator.dataBegin (o : ObjectCreator) : ℕ := (o.flushHeader.length + 8) % 2 ^ 32

/-- The map entry `Flush` sets for a record: the segment, `dataBegin + uint32(offset)` as a
32-bit sum, the flags, and `uint32(size)`. -/
def ObjectCreator.pba (o : ObjectCreator) (seg : SegmentId) (b : OcBlock) : ObjPBA :=
  ⟨seg, (o.dataBegin + b.offset % 2 ^ 32) % 2 ^ 32, b.flags, b.size % 2 ^ 32⟩

/-- The bytes a flush writes: `uint32(cnt)` and `dataBegin` big-endian, the header, the body. -/
def ObjectCreator.file (o : ObjectCreator) : List UInt8 :=
  putBE 4 o.cnt ++ putBE 4 o.dataBegin ++ o.flushHeader ++ o.body

/-- `Flush(path, seg, m)`, with `fail` the file-system call that fails, if any. The map is set
for every record before the file is created; the deferred `Reset` runs on every exit. Returns
the creator, the map, and the file's bytes or the failure. -/
def ObjectCreator.flush (o : ObjectCreator) (seg : SegmentId) (m : LbaMap)
    (fail : Option FlushFailure) : ObjectCreator × LbaMap × Except FlushFailure (List UInt8) :=
  (o.reset, o.blocks.foldl (fun m b => m.set b.lba (o.pba seg b)) m,
    match fail with
    | some f => .error f
    | none => .ok o.file)

/-- A flush that does not fail resets the creator and writes its file. -/
theorem ObjectCreator.flush_none (o : ObjectCreator) (seg : SegmentId) (m : LbaMap) :
    o.flush seg m none = ({}, (o.flush seg m none).2.1, .ok o.file) :=
  rfl

/-! ## Reading a flushed block back -/

/-- The block that stored bytes with `flags` decode to: raw for `0`, LZ4-uncompressed for `1`,
the all-zero block for `2` with no bytes. -/
def decodeBlock (lz : Lz4) (flags : UInt8) (raw : List UInt8) : Option Block :=
  if flags = 0 then some raw
  else if flags = 1 then lz.uncompressBlock raw
  else if flags = 2 ∧ raw = [] then some emptyBlock
  else none

/-- The block last written at `l`, if any. -/
def lastWritten (ws : List (ℕ × Block)) (l : ℕ) : Option Block :=
  (ws.reverse.find? (·.1 = l)).map (·.2)

/-- How `WriteExtent` stores a block, as flags and bytes: `2` and nothing for an all-zero block,
`storeBlock` for any other. -/
def storedAs (lz : Lz4) (blk : Block) : UInt8 × List UInt8 :=
  if blk = emptyBlock then (2, []) else ((storeBlock lz blk).2, (storeBlock lz blk).1)

/-- A stored block decodes to the block. -/
theorem decodeBlock_storedAs {lz : Lz4} (hlz : lz.Inverts) (blk : Block) :
    decodeBlock lz (storedAs lz blk).1 (storedAs lz blk).2 = some blk := by
  unfold storedAs storeBlock
  split_ifs with he hc
  · simp [decodeBlock, he]
  · simpa [decodeBlock] using hlz blk (List.ne_nil_of_length_pos hc.1)
  · simp [decodeBlock]

/-- What the creator holds after writing the blocks `ws` (each with its LBA, in order): no header
yet, `cnt` counting the records, `offset` at the end of the body, the body as long as the
records' sizes together, and one record per block, at its LBA, whose flags and body slice are how
the block is stored. -/
structure Tracks (lz : Lz4) (o : ObjectCreator) (ws : List (ℕ × Block)) : Prop where
  header : o.header = []
  cnt : o.cnt = ws.length
  offset : o.offset = o.body.length
  body : o.body.length = (o.blocks.map OcBlock.size).sum
  records : List.Forall₂ (fun b w => b.lba = w.1 ∧ b.offset + b.size ≤ o.body.length ∧
      (b.flags, bytesAt o.body b.offset b.size) = storedAs lz w.2) o.blocks ws

/-- A fresh creator holds nothing. -/
theorem tracks_empty (lz : Lz4) : Tracks lz {} [] :=
  ⟨rfl, rfl, rfl, rfl, .nil⟩

/-- One block written keeps `Tracks`, with the block added at the end. -/
theorem Tracks.writeBlock {lz : Lz4} {o : ObjectCreator} {ws : List (ℕ × Block)}
    (h : Tracks lz o ws) (lba : ℕ) (blk : Block) :
    Tracks lz (o.writeBlock lz lba blk) (ws ++ [(lba, blk)]) := by
  obtain ⟨hh, hc, ho, hb, hr⟩ := h
  unfold ObjectCreator.writeBlock
  split
  · rename_i he
    refine ⟨hh, by simp [hc], ho, by simpa using hb, List.rel_append hr (.cons ?_ .nil)⟩
    simp [he, storedAs, bytesAt]
  · rename_i he
    refine ⟨hh, by simp [hc], by simp [ho], by simp [hb], List.rel_append ?_ (.cons ?_ .nil)⟩
    · refine hr.imp fun b w ⟨h1, h2, h3⟩ => ⟨h1, by simp; omega, ?_⟩
      rwa [bytesAt_append_left _ h2]
    · simp [ho, storedAs, he]

/-- Writing blocks one after another keeps `Tracks`. -/
theorem Tracks.writeAll {lz : Lz4} {o : ObjectCreator} {ws : List (ℕ × Block)}
    (h : Tracks lz o ws) (ws' : List (ℕ × Block)) :
    Tracks lz (o.writeAll lz ws') (ws ++ ws') := by
  induction ws' using List.reverseRecOn with
  | nil => simpa [ObjectCreator.writeAll] using h
  | append_singleton ws' w ih =>
    simpa [ObjectCreator.writeAll, List.foldl_append, ← List.append_assoc] using
      ih.writeBlock w.1 w.2

/-- A run of `WriteExtent` calls writes the blocks of `callBlocks`, in order. -/
theorem writeExtents_eq_writeAll (lz : Lz4) (o : ObjectCreator) (calls : List (ℕ × List Block)) :
    o.writeExtents lz calls = o.writeAll lz (callBlocks calls) := by
  induction calls generalizing o with
  | nil => rfl
  | cons c calls ih =>
    simp [ObjectCreator.writeExtents, ObjectCreator.writeAll, callBlocks, List.foldl_append] at ih ⊢
    rw [ih]; rfl

/-- A fresh creator after a run of `WriteExtent` calls tracks the blocks they wrote. -/
theorem tracks_writeExtents (lz : Lz4) (calls : List (ℕ × List Block)) :
    Tracks lz (ObjectCreator.writeExtents lz {} calls) (callBlocks calls) := by
  simpa [writeExtents_eq_writeAll] using (tracks_empty lz).writeAll (callBlocks calls)

/-- The map after setting each record in turn holds, at `l`, the entry of the last record
there. -/
theorem foldl_set_apply (f : OcBlock → ObjPBA) (bs : List OcBlock) (m : LbaMap) (l : ℕ) :
    bs.foldl (fun m b => m.set b.lba (f b)) m l =
      match bs.reverse.find? (·.lba = l) with
      | some b => some (f b)
      | none => m l := by
  induction bs using List.reverseRecOn with
  | nil => rfl
  | append_singleton bs b ih =>
    by_cases h : b.lba = l
    · simp [LbaMap.set, h]
    · simp only [List.foldl_append, List.foldl_cons, List.foldl_nil, LbaMap.set, List.reverse_append,
        List.reverse_singleton, List.singleton_append, List.find?_cons, h, decide_False]
      rw [if_neg (Ne.symm h)]
      exact ih

/-- Related lists have related first elements under related tests. -/
theorem forall₂_find {α β : Type} {R : α → β → Prop} {p : α → Bool} {q : β → Bool}
    (hpq : ∀ a b, R a b → p a = q b) {xs : List α} {ys : List β} (h : List.Forall₂ R xs ys) :
    Option.Rel R (xs.find? p) (ys.find? q) := by
  induction h with
  | nil => exact .none
  | cons hab _ ih =>
    rw [List.find?_cons, List.find?_cons, hpq _ _ hab]
    split
    · exact .some hab
    · exact ih

/-- Below `2^32` bytes of file, the entry of a record is its place in the file without
wrapping: `dataBegin`, that is eight bytes and the header, past the start, plus its offset. -/
theorem pba_eq {o : ObjectCreator} {b : OcBlock} (seg : SegmentId)
    (hb : b.offset + b.size ≤ o.body.length) (hF : o.file.length < 2 ^ 32) :
    o.pba seg b = ⟨seg, o.flushHeader.length + 8 + b.offset, b.flags, b.size⟩ := by
  simp only [ObjectCreator.file, List.length_append, length_putBE] at hF
  simp only [ObjectCreator.pba, ObjectCreator.dataBegin, ObjPBA.mk.injEq, true_and]
  refine ⟨?_, Nat.mod_eq_of_lt (by omega)⟩
  rw [Nat.mod_eq_of_lt (by omega : o.flushHeader.length + 8 < 2 ^ 32),
    Nat.mod_eq_of_lt (by omega : b.offset < 2 ^ 32), Nat.mod_eq_of_lt (by omega)]

/-- The file's bytes past the eight bytes of words and the header are the body's. -/
theorem bytesAt_file (o : ObjectCreator) (off n : ℕ) :
    bytesAt o.file (o.flushHeader.length + 8 + off) n = bytesAt o.body off n := by
  have hfile : o.file = (putBE 4 o.cnt ++ putBE 4 o.dataBegin ++ o.flushHeader) ++ o.body := rfl
  rw [hfile, show o.flushHeader.length + 8 + off =
    (putBE 4 o.cnt ++ putBE 4 o.dataBegin ++ o.flushHeader).length + off by simp; omega,
    bytesAt_append_right]

/-- A successful flush of a fresh creator after any run of `WriteExtent` calls maps every LBA
written to the segment, at a slice of the file that decodes to the block last written there,
and leaves the map as it was at every other LBA. -/
theorem flush_maps_last_written {lz : Lz4} (hlz : lz.Inverts) (calls : List (ℕ × List Block))
    (seg : SegmentId) (m : LbaMap) {o' : ObjectCreator} {m' : LbaMap} {F : List UInt8}
    (hflush : (ObjectCreator.writeExtents lz {} calls).flush seg m none = (o', m', .ok F))
    (hF : F.length < 2 ^ 32) (l : ℕ) :
    match lastWritten (callBlocks calls) l with
    | some blk => ∃ p, m' l = some p ∧ p.segment = seg ∧
        decodeBlock lz p.flags (bytesAt F p.offset p.size) = some blk
    | none => m' l = m l := by
  set o := ObjectCreator.writeExtents lz {} calls
  simp only [ObjectCreator.flush, Prod.mk.injEq, Except.ok.injEq] at hflush
  obtain ⟨-, rfl, rfl⟩ := hflush
  have ht := tracks_writeExtents lz calls
  have hrel : Option.Rel _ (o.blocks.reverse.find? (·.lba = l))
      ((callBlocks calls).reverse.find? (·.1 = l)) :=
    forall₂_find (fun b w h => by simp [h.1]) (List.forall₂_reverse_iff.mpr ht.records)
  rw [foldl_set_apply]
  unfold lastWritten
  revert hrel
  generalize o.blocks.reverse.find? (·.lba = l) = ob
  generalize (callBlocks calls).reverse.find? (·.1 = l) = ow
  intro hrel
  cases hrel with
  | none => rfl
  | some hbw =>
    rename_i b w
    obtain ⟨-, hle, hst⟩ := hbw
    refine ⟨_, rfl, rfl, ?_⟩
    rw [pba_eq seg hle hF]
    simp only [Option.map_some']
    rw [bytesAt_file, ← decodeBlock_storedAs hlz w.2, ← hst]

/-- An LZ4 that never compresses; `UncompressBlock` inverts it vacuously. -/
def Lz4.never : Lz4 := ⟨fun _ => [], fun _ => none⟩

theorem Lz4.never_inverts : Lz4.never.Inverts := fun _ h => absurd rfl h

/-- An LZ4 that compresses the block of ones, to one byte, and no other block. -/
def Lz4.onesOnly : Lz4 :=
  ⟨fun b => if b = List.replicate BlockSize 1 then [1] else [],
    fun bs => if bs = [1] then some (List.replicate BlockSize 1) else none⟩

/-- `Lz4.onesOnly` uncompresses what it compresses. -/
theorem Lz4.onesOnly_inverts : Lz4.onesOnly.Inverts := by
  intro b hb
  by_cases h : b = List.replicate BlockSize 1 <;> simp_all [Lz4.onesOnly]

/-- `Lz4.onesOnly` compresses the block of ones to one byte. -/
theorem Lz4.onesOnly_compress_ones :
    Lz4.onesOnly.compressBlock (List.replicate BlockSize 1) = [1] := by
  unfold Lz4.onesOnly
  dsimp only
  rw [if_pos rfl]

/-- The block of ones is not all zero. -/
theorem ones_ne_emptyBlock : List.replicate BlockSize (1 : UInt8) ≠ emptyBlock := by
  rw [emptyBlock, Ne, List.replicate_inj]
  decide

/-- LBA 7 written with zeros, then rewritten with the block of ones. -/
def sevenTwiceCalls : List (ℕ × List Block) :=
  [(7, [emptyBlock]), (7, [List.replicate BlockSize 1])]

/-- The creator after `sevenTwiceCalls`, under `Lz4.onesOnly`. -/
def ObjectCreator.sevenTwice : ObjectCreator :=
  ObjectCreator.writeExtents Lz4.onesOnly {} sevenTwiceCalls

/-- Its records: the zeros with flags `2` and no bytes, then the ones with flags `1`, compressed to
one byte of body. The blocks are compared only by rewriting, never by evaluation. -/
theorem sevenTwice_eq :
    ObjectCreator.sevenTwice = ⟨2, 1, [⟨7, 2, 0, 0⟩, ⟨7, 1, 1, 0⟩], [], [1]⟩ := by
  have hcalls : callBlocks sevenTwiceCalls = [(7, emptyBlock), (7, List.replicate BlockSize 1)] :=
    rfl
  rw [ObjectCreator.sevenTwice, writeExtents_eq_writeAll, hcalls, ObjectCreator.writeAll,
    List.foldl_cons, List.foldl_cons, List.foldl_nil, ObjectCreator.writeBlock,
    if_neg ones_ne_emptyBlock, ObjectCreator.writeBlock, if_pos rfl, storeBlock,
    Lz4.onesOnly_compress_ones, if_pos (by simp [BlockSize])]
  rfl

/-- LBA 7 rewritten and flushed to segment `0`: its entry is the second record's, compressed, at
offset 16, and decodes to the block of ones. -/
theorem flush_maps_last_written_at_seven :
    Lz4.onesOnly.Inverts ∧ ObjectCreator.sevenTwice.file.length < 2 ^ 32 ∧
      lastWritten (callBlocks sevenTwiceCalls) 7 = some (List.replicate BlockSize 1) ∧
      (ObjectCreator.sevenTwice.flush 0 (fun _ => none) none).2.1 7 = some ⟨0, 16, 1, 1⟩ ∧
      match lastWritten (callBlocks sevenTwiceCalls) 7 with
      | some blk => ∃ p, (ObjectCreator.sevenTwice.flush 0 (fun _ => none) none).2.1 7 = some p ∧
          p.segment = 0 ∧
          decodeBlock Lz4.onesOnly p.flags (bytesAt ObjectCreator.sevenTwice.file p.offset p.size) =
            some blk
      | none => (ObjectCreator.sevenTwice.flush 0 (fun _ => none) none).2.1 7 = none := by
  have hF : ObjectCreator.sevenTwice.file.length < 2 ^ 32 := by
    rw [sevenTwice_eq]
    decide
  have hp : (ObjectCreator.sevenTwice.flush 0 (fun _ => none) none).2.1 7 = some ⟨0, 16, 1, 1⟩ := by
    rw [sevenTwice_eq]
    decide
  exact ⟨Lz4.onesOnly_inverts, hF, rfl, hp,
    flush_maps_last_written Lz4.onesOnly_inverts _ 0 _ (ObjectCreator.flush_none _ _ _) hF 7⟩

/-! ## The layout of a flushed file -/

/-- One header record read back under the layout of section 6: `uvarint lba`, the flags byte,
`uvarint size`, `uvarint offset`. -/
def readRecord (bs : List UInt8) : Option (OcBlock × List UInt8) :=
  match uvarint bs with
  | some (lba, flags :: bs) =>
    match uvarint bs with
    | some (size, bs) => (uvarint bs).map fun (offset, bs) => (⟨lba, flags, size, offset⟩, bs)
    | none => none
  | _ => none

/-- `n` header records read back one after another, and the bytes after them. -/
def readRecords : ℕ → List UInt8 → Option (List OcBlock × List UInt8)
  | 0, bs => some ([], bs)
  | n + 1, bs =>
    match readRecord bs with
    | some (r, bs) => (readRecords n bs).map fun (rs, rest) => (r :: rs, rest)
    | none => none

/-- A record reads back to itself. -/
theorem readRecord_record (b : OcBlock) (rest : List UInt8) :
    readRecord (b.record ++ rest) = some (b, rest) := by
  simp [readRecord, OcBlock.record, uvarint_putUvarint]

/-- Records one after another read back to themselves. -/
theorem readRecords_records (bs : List OcBlock) (rest : List UInt8) :
    readRecords bs.length ((bs.map OcBlock.record).flatten ++ rest) = some (bs, rest) := by
  induction bs with
  | nil => rfl
  | cons b bs ih => simp [readRecords, readRecord_record, ih]

/-- Related lists under a relation that fixes the LBA have the same LBAs. -/
theorem Tracks.lbas {lz : Lz4} {o : ObjectCreator} {ws : List (ℕ × Block)} (h : Tracks lz o ws) :
    o.blocks.map OcBlock.lba = ws.map Prod.fst := by
  obtain ⟨-, -, -, -, hr⟩ := h
  generalize o.blocks = bs at hr
  induction hr with
  | nil => rfl
  | cons hbw _ ih => simp [hbw.1, ih]

/-- The file of a creator that tracks fewer than `2^32` blocks, itself below `2^32` bytes, reads
back under the section-6 layout. -/
theorem Tracks.file_layout {lz : Lz4} {o : ObjectCreator} {ws : List (ℕ × Block)}
    (ht : Tracks lz o ws) (hn : ws.length < 2 ^ 32) (hF : o.file.length < 2 ^ 32) :
    getBE (o.file.take 4) = ws.length ∧ 8 ≤ getBE ((o.file.drop 4).take 4) ∧
      getBE ((o.file.drop 4).take 4) ≤ o.file.length ∧
      readRecords (getBE (o.file.take 4)) (o.file.drop 8) =
        some (o.blocks, o.file.drop (getBE ((o.file.drop 4).take 4))) ∧
      o.file.drop (getBE ((o.file.drop 4).take 4)) = o.body := by
  have hfile : o.file = putBE 4 o.cnt ++ (putBE 4 o.dataBegin ++ (o.flushHeader ++ o.body)) := by
    simp [ObjectCreator.file]
  have hlen : o.file.length = o.flushHeader.length + 8 + o.body.length := by
    simp [hfile]; omega
  have hdb : o.dataBegin = o.flushHeader.length + 8 := Nat.mod_eq_of_lt (by omega)
  have h4 : (256 : ℕ) ^ 4 = 2 ^ 32 := rfl
  have hcount : getBE (o.file.take 4) = ws.length := by
    rw [hfile, List.take_left' (length_putBE 4 _), getBE_putBE, ht.cnt, h4, Nat.mod_eq_of_lt hn]
  have hbegin : getBE ((o.file.drop 4).take 4) = o.flushHeader.length + 8 := by
    rw [hfile, List.drop_left' (length_putBE 4 _), List.take_left' (length_putBE 4 _),
      getBE_putBE, hdb, h4]
    exact Nat.mod_eq_of_lt (by omega)
  have hbody : o.file.drop (o.flushHeader.length + 8) = o.body := by
    rw [hfile, ← List.append_assoc, ← List.append_assoc, List.drop_left']
    simp; omega
  have hhdr : o.file.drop 8 = (o.blocks.map OcBlock.record).flatten ++ o.body := by
    rw [hfile, ← List.append_assoc, List.drop_left' (by simp)]
    simp [ObjectCreator.flushHeader, ht.header]
  rw [hbegin, hcount, hhdr, hbody, ← ht.records.length_eq, readRecords_records]
  exact ⟨rfl, by omega, by omega, rfl, rfl⟩

/-- The file of a successful flush of a fresh creator, after any run of `WriteExtent` calls of
fewer than `2^32` blocks in all, reads back under the section-6 layout: the first word is the
number of blocks written; the second, `dataBegin`, is at least 8 and inside the file; that many
records read from byte 8 end exactly at `dataBegin` and are the creator's records, at the LBAs
written, in order; and from `dataBegin` on is the body, as long as the records' sizes together. -/
theorem flush_layout (lz : Lz4) (calls : List (ℕ × List Block)) (seg : SegmentId) (m : LbaMap)
    {o' : ObjectCreator} {m' : LbaMap} {F : List UInt8}
    (hflush : (ObjectCreator.writeExtents lz {} calls).flush seg m none = (o', m', .ok F))
    (hn : (callBlocks calls).length < 2 ^ 32) (hF : F.length < 2 ^ 32) :
    getBE (F.take 4) = (callBlocks calls).length ∧ 8 ≤ getBE ((F.drop 4).take 4) ∧
      getBE ((F.drop 4).take 4) ≤ F.length ∧
      readRecords (getBE (F.take 4)) (F.drop 8) =
        some ((ObjectCreator.writeExtents lz {} calls).blocks, F.drop (getBE ((F.drop 4).take 4))) ∧
      (ObjectCreator.writeExtents lz {} calls).blocks.map OcBlock.lba =
        (callBlocks calls).map Prod.fst ∧
      F.drop (getBE ((F.drop 4).take 4)) = (ObjectCreator.writeExtents lz {} calls).body ∧
      (ObjectCreator.writeExtents lz {} calls).body.length =
        ((ObjectCreator.writeExtents lz {} calls).blocks.map OcBlock.size).sum := by
  simp only [ObjectCreator.flush, Prod.mk.injEq, Except.ok.injEq] at hflush
  obtain ⟨-, -, rfl⟩ := hflush
  have ht := tracks_writeExtents lz calls
  obtain ⟨h1, h2, h3, h4, h5⟩ := ht.file_layout hn hF
  exact ⟨h1, h2, h3, h4, ht.lbas, h5, ht.body⟩

/-- The layout of the file of `sevenTwice`: two records at LBA 7, flags `2` then `1`. -/
theorem flush_layout_at_seven :
    (callBlocks sevenTwiceCalls).length < 2 ^ 32 ∧ ObjectCreator.sevenTwice.file.length < 2 ^ 32 ∧
      ObjectCreator.sevenTwice.blocks = [⟨7, 2, 0, 0⟩, ⟨7, 1, 1, 0⟩] ∧
      getBE (ObjectCreator.sevenTwice.file.take 4) = (callBlocks sevenTwiceCalls).length ∧
      8 ≤ getBE ((ObjectCreator.sevenTwice.file.drop 4).take 4) ∧
      getBE ((ObjectCreator.sevenTwice.file.drop 4).take 4) ≤ ObjectCreator.sevenTwice.file.length ∧
      readRecords (getBE (ObjectCreator.sevenTwice.file.take 4))
          (ObjectCreator.sevenTwice.file.drop 8) =
        some (ObjectCreator.sevenTwice.blocks,
          ObjectCreator.sevenTwice.file.drop (getBE ((ObjectCreator.sevenTwice.file.drop 4).take 4))) ∧
      ObjectCreator.sevenTwice.blocks.map OcBlock.lba = (callBlocks sevenTwiceCalls).map Prod.fst ∧
      ObjectCreator.sevenTwice.file.drop (getBE ((ObjectCreator.sevenTwice.file.drop 4).take 4)) =
        ObjectCreator.sevenTwice.body ∧
      ObjectCreator.sevenTwice.body.length =
        (ObjectCreator.sevenTwice.blocks.map OcBlock.size).sum := by
  have hn : (callBlocks sevenTwiceCalls).length < 2 ^ 32 := by decide
  have hF : ObjectCreator.sevenTwice.file.length < 2 ^ 32 := by
    rw [sevenTwice_eq]
    decide
  exact ⟨hn, hF, by rw [sevenTwice_eq],
    flush_layout Lz4.onesOnly sevenTwiceCalls 0 (fun _ => none) (ObjectCreator.flush_none _ _ _) hn hF⟩

/-! ## A failed flush -/

/-- When `Flush` fails, at `os.Create` or at any write to the file, the map already has an entry
in `seg` at the LBA of every pending record and the creator is empty, so a retried `Flush`
writes an empty segment, a count of 0 and `dataBegin` 8, and sets no entry. -/
theorem flush_failure_installs (o : ObjectCreator) (seg : SegmentId) (m : LbaMap)
    (f : FlushFailure) (m₂ : LbaMap) :
    let r := o.flush seg m (some f)
    r.2.2 = .error f ∧ (∀ b ∈ o.blocks, ∃ p, r.2.1 b.lba = some p ∧ p.segment = seg) ∧
      r.1.flush seg m₂ none = ({}, m₂, .ok (putBE 4 0 ++ putBE 4 8)) := by
  refine ⟨rfl, fun b hb => ?_, rfl⟩
  simp only [ObjectCreator.flush, foldl_set_apply]
  obtain ⟨b', hb'⟩ : ∃ b', o.blocks.reverse.find? (·.lba = b.lba) = some b' :=
    Option.isSome_iff_exists.mp (List.find?_isSome.mpr ⟨b, List.mem_reverse.mpr hb, by simp⟩)
  rw [hb']
  exact ⟨_, rfl, rfl⟩

/-- The flush of `sevenTwice`, two records pending at LBA 7, fails at `os.Create`: the map has
gained the second record's entry, at offset 16 of segment `0`, with no file written; the creator
has lost both records, and the retried `Flush` writes an empty segment of eight bytes and sets no
entry, so the entry points past the end of the only file the segment gets. -/
theorem flush_failure_changes_map :
    (ObjectCreator.sevenTwice.flush 0 (fun _ => none) (some .create)).2.2 = .error .create ∧
      (ObjectCreator.sevenTwice.flush 0 (fun _ => none) (some .create)).2.1 7 =
        some ⟨0, 16, 1, 1⟩ ∧
      ObjectCreator.sevenTwice.blocks.length = 2 ∧
      (ObjectCreator.sevenTwice.flush 0 (fun _ => none) (some .create)).1.flush 0
          (ObjectCreator.sevenTwice.flush 0 (fun _ => none) (some .create)).2.1 none =
        ({}, (ObjectCreator.sevenTwice.flush 0 (fun _ => none) (some .create)).2.1,
          .ok (putBE 4 0 ++ putBE 4 8)) := by
  obtain ⟨herr, -, hretry⟩ := flush_failure_installs ObjectCreator.sevenTwice 0 (fun _ => none)
    .create (ObjectCreator.sevenTwice.flush 0 (fun _ => none) (some .create)).2.1
  refine ⟨herr, ?_, by rw [sevenTwice_eq]; rfl, hretry⟩
  rw [sevenTwice_eq]
  decide

end Lsvd
