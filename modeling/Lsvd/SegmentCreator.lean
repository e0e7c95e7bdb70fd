import Lsvd.RangeData
import Lsvd.ObjectCreator

/-!
# The segment creator

`SegmentCreator` is not among the sources; it is modelled from section 4.3 of the spec. It takes
the blocks of each range written one by one, as `ObjectCreator.WriteExtent` does: an all-zero block
is a record with flags `Empty` and no body bytes, any other is stored by `storeBlock`, compressed
or raw. `ZeroBlocks` is one `Empty` record for the whole extent. `FillExtent` copies, record by
record in order, what each holds of a range into it. `Flush` lays the records and the body out as
section 6 says and returns where each record's bytes are in the segment.

`lookup` is what the creator holds for a block: what the latest record containing it holds.
`fillExtent_spec` says `FillExtent` fills exactly the blocks the creator holds, with that, and
returns extents covering exactly them; `writeExtent_spec` and `zeroBlocks_spec` say what the
writes do to `lookup`. All of it rests on `Wf`: every record's body bytes decode to its extent's.

Section 3 gives a record's size, raw size and offset as `uint32`. They are numbers here, and the
offset and size are the `uint32` fields exactly while the segment is below 4 GiB (`locations_lt`);
the raw size is a block's or zero. The disk seals a creator once its body reaches
`FlushThreshHold`, so a segment passes 4 GiB only through one `WriteExtent` or `WriteExtents` call
of about that much data, where the code's offsets wrap and the model's do not.
-/

namespace Lsvd

/-- The flags of a stored extent: `Uncompressed`. -/
def Uncompressed : UInt8 := 0

/-- `Compressed`. -/
def Compressed : UInt8 := 1

/-- `Empty`: no bytes stored, every block zero. -/
def Empty : UInt8 := 2

/-- `ExtentHeader`: the extent a record was written for, its flags, its size in the body and
decompressed, and its offset in the body. These are `uint32` in the code and numbers here: the
offset and size agree with the code's below 4 GiB of segment (`locations_lt`), and the raw size of
every record the writes make is a block's or zero. -/
structure ExtentHeader where
  extent : Extent
  flags : UInt8
  size : ℕ
  rawSize : ℕ
  offset : ℕ
deriving DecidableEq, Repr

/-- Modelled from the spec: `SegmentCreator`, its extent records in write order and its body. -/
structure SegmentCreator where
  extents : List ExtentHeader := []
  body : List UInt8 := []
deriving DecidableEq, Repr

namespace SegmentCreator

/-- Modelled from the spec: one block of `WriteExtent`, at `lba`. -/
def writeBlock (lz : Lz4) (oc : SegmentCreator) (lba : ℕ) (blk : Block) : SegmentCreator :=
  if blk = emptyBlock then
    { oc with extents := oc.extents ++ [⟨⟨lba, 1⟩, Empty, 0, 0, oc.body.length⟩] }
  else
    { extents := oc.extents ++
        [⟨⟨lba, 1⟩, (storeBlock lz blk).2, (storeBlock lz blk).1.length, blk.length, oc.body.length⟩]
      body := oc.body ++ (storeBlock lz blk).1 }

/-- Modelled from the spec: `WriteExtent(data)`, the blocks of the range one after another. -/
def writeExtent (lz : Lz4) (oc : SegmentCreator) (data : RangeData) : SegmentCreator :=
  (List.range data.extent.blocks).foldl
    (fun oc i => oc.writeBlock lz (data.extent.lba + i) (data.block (data.extent.lba + i))) oc

/-- Modelled from the spec: `ZeroBlocks(rng)`, one `Empty` record for the whole extent. -/
def zeroBlocks (oc : SegmentCreator) (rng : Extent) : SegmentCreator :=
  { oc with extents := oc.extents ++ [⟨rng, Empty, 0, 0, oc.body.length⟩] }

/-- Modelled from the spec: `BodySize()`, the bytes in the body. -/
def bodySize (oc : SegmentCreator) : ℕ := oc.body.length

/-- What a record holds for its extent: zeros for an `Empty` record, else its body bytes decoded
by its flags. -/
def recordBytes (lz : Lz4) (oc : SegmentCreator) (r : ExtentHeader) : Option (List UInt8) :=
  if r.flags = Empty then some (List.replicate (r.extent.blocks * BlockSize) 0)
  else decodeBlock lz r.flags (bytesAt oc.body r.offset r.size)

/-- One record of `FillExtent`: if it shares blocks with the range, what it holds of them is
copied in and the shared extent is added to those filled. -/
def fillRecord (lz : Lz4) (oc : SegmentCreator) (acc : RangeData × List Extent)
    (r : ExtentHeader) : Option (RangeData × List Extent) :=
  match r.extent.clamp acc.1.extent with
  | none => some acc
  | some c => (oc.recordBytes lz r).bind fun bytes =>
    ((⟨r.extent, bytes⟩ : RangeData).subRange c).map fun v => (acc.1.writeBack v, acc.2 ++ [c])

/-- Modelled from the spec: `FillExtent(data)`, the records in order, later ones over earlier
ones; the range filled and the extents filled, or `none` when a record does not decode. -/
def fillExtent (lz : Lz4) (oc : SegmentCreator) (data : RangeData) :
    Option (RangeData × List Extent) :=
  oc.extents.foldlM (oc.fillRecord lz) (data, [])

/-- What the records `rs` hold for block `l`: the block that the latest of them containing it
holds. -/
def lookupIn (lz : Lz4) (oc : SegmentCreator) (rs : List ExtentHeader) (l : ℕ) : Option Block :=
  rs.foldl (fun acc r => if l ∈ r.extent then
    (oc.recordBytes lz r).map fun bytes => (⟨r.extent, bytes⟩ : RangeData).block l
    else acc) none

/-- What the creator holds for block `l`. -/
def lookup (lz : Lz4) (oc : SegmentCreator) (l : ℕ) : Option Block := oc.lookupIn lz oc.extents l

/-- Every record's bytes lie in the body and decode to its extent's bytes. -/
def Wf (lz : Lz4) (oc : SegmentCreator) : Prop :=
  ∀ r ∈ oc.extents, r.offset + r.size ≤ oc.body.length ∧
    ∃ bytes, oc.recordBytes lz r = some bytes ∧ bytes.length = r.extent.blocks * BlockSize

/-- The records after one more: `r` if it contains the block, else as before. -/
theorem lookupIn_append_singleton (lz : Lz4) (oc : SegmentCreator) (rs : List ExtentHeader)
    (r : ExtentHeader) (l : ℕ) :
    oc.lookupIn lz (rs ++ [r]) l = if l ∈ r.extent then
      (oc.recordBytes lz r).map fun bytes => (⟨r.extent, bytes⟩ : RangeData).block l
    else oc.lookupIn lz rs l := by
  simp [lookupIn, List.foldl_append]

/-- After a record that decodes, the records hold its blocks and those they held before. -/
theorem isSome_lookupIn_append_singleton {lz : Lz4} {oc : SegmentCreator} {rs : List ExtentHeader}
    {r : ExtentHeader} (hr : (oc.recordBytes lz r).isSome) (l : ℕ) :
    (oc.lookupIn lz (rs ++ [r]) l).isSome ↔ l ∈ r.extent ∨ (oc.lookupIn lz rs l).isSome := by
  rw [lookupIn_append_singleton]
  split_ifs with hl <;> simp [hl, hr]

/-- What `FillExtent` has done after the records `rs`, from the range `d`: the range has `d`'s
extent and is well formed, each of its blocks is what `rs` hold for it or, if nothing, what it
was, and the extents filled, none empty, cover exactly the blocks of `d` that `rs` hold. -/
structure FillInv (lz : Lz4) (oc : SegmentCreator) (d : RangeData) (rs : List ExtentHeader)
    (acc : RangeData × List Extent) : Prop where
  extent : acc.1.extent = d.extent
  wf : acc.1.Wf
  block : ∀ l ∈ d.extent, acc.1.block l = (oc.lookupIn lz rs l).getD (d.block l)
  filled : ∀ l, (∃ u ∈ acc.2, l ∈ u) ↔ l ∈ d.extent ∧ (oc.lookupIn lz rs l).isSome
  pos : ∀ u ∈ acc.2, 0 < u.blocks

/-- One record of `FillExtent` keeps `FillInv`, for a record that decodes to its extent's
bytes. -/
theorem FillInv.fillRecord {lz : Lz4} {oc : SegmentCreator} {d : RangeData}
    {rs : List ExtentHeader} {acc : RangeData × List Extent} (h : FillInv lz oc d rs acc)
    {r : ExtentHeader} {bytes : List UInt8} (hr : oc.recordBytes lz r = some bytes)
    (hlen : bytes.length = r.extent.blocks * BlockSize) :
    ∃ acc', oc.fillRecord lz acc r = some acc' ∧ FillInv lz oc d (rs ++ [r]) acc' := by
  obtain ⟨hext, hwf, hblock, hfilled, hpos⟩ := h
  unfold SegmentCreator.fillRecord
  split
  · rename_i hnone
    have hdis := Extent.clamp_eq_none.mp hnone
    refine ⟨acc, rfl, hext, hwf, fun l hl => ?_, fun l => ?_, hpos⟩
    · rw [lookupIn_append_singleton, if_neg fun h' => hdis l h' (hext ▸ hl)]
      exact hblock l hl
    · rw [hfilled, isSome_lookupIn_append_singleton (by rw [hr]; rfl)]
      exact and_congr_right fun hl => (or_iff_right fun hlr => hdis l hlr (hext ▸ hl)).symm
  · rename_i c hc
    have hcm := Extent.mem_clamp hc
    have hsub : c ⊆ r.extent :=
      Extent.subset_of_mem (Extent.clamp_blocks_pos hc) fun l hl => ((hcm l).mp hl).1
    have hsubd : c ⊆ acc.1.extent :=
      Extent.subset_of_mem (Extent.clamp_blocks_pos hc) fun l hl => ((hcm l).mp hl).2
    -- The part of the record's bytes for `c`, copied in.
    have hv : (⟨r.extent, bytes⟩ : RangeData).subRange c =
        some ⟨c, bytesAt bytes ((c.lba - r.extent.lba) * BlockSize) (c.blocks * BlockSize)⟩ :=
      RangeData.subRange_of_subset hsub
    have hvwf := RangeData.wf_subRange (show RangeData.Wf ⟨r.extent, bytes⟩ from hlen) hv
    refine ⟨_, by rw [hr, Option.some_bind, hv, Option.map_some'], ?_⟩
    refine ⟨hext, RangeData.wf_writeBack hwf hvwf hsubd, fun l hl => ?_, fun l => ?_, ?_⟩
    · rw [RangeData.block_writeBack hwf hvwf hsubd (hext ▸ hl), lookupIn_append_singleton]
      by_cases hlc : l ∈ c
      · rw [if_pos hlc, if_pos ((hcm l).mp hlc).1, hr, RangeData.block_subRange hv hlc]
        rfl
      · rw [if_neg hlc, if_neg fun h' => hlc ((hcm l).mpr ⟨h', hext ▸ hl⟩)]
        exact hblock l hl
    · simp only [List.mem_append, List.mem_singleton, or_and_right, exists_or, exists_eq_left,
        hfilled, hcm, hext, isSome_lookupIn_append_singleton (by rw [hr]; rfl)]
      tauto
    · intro u hu
      rcases List.mem_append.mp hu with hu | hu
      · exact hpos u hu
      · rw [List.mem_singleton.mp hu]; exact Extent.clamp_blocks_pos hc

/-- `FillExtent` on a well-formed creator and a well-formed range succeeds; it fills exactly the
blocks the creator holds, with what it holds, and returns non-empty extents covering exactly
those blocks. -/
theorem fillExtent_spec {lz : Lz4} {oc : SegmentCreator} (hoc : oc.Wf lz) {d : RangeData}
    (hd : d.Wf) :
    ∃ d' used, oc.fillExtent lz d = some (d', used) ∧ d'.extent = d.extent ∧ d'.Wf ∧
      (∀ l ∈ d.extent, d'.block l = (oc.lookup lz l).getD (d.block l)) ∧
      (∀ l, (∃ u ∈ used, l ∈ u) ↔ l ∈ d.extent ∧ (oc.lookup lz l).isSome) ∧
      ∀ u ∈ used, 0 < u.blocks := by
  suffices h : ∀ rs, (∀ r ∈ rs, r ∈ oc.extents) →
      ∃ acc, rs.foldlM (oc.fillRecord lz) (d, []) = some acc ∧ FillInv lz oc d rs acc by
    obtain ⟨⟨d', used⟩, h1, ⟨h2, h3, h4, h5, h6⟩⟩ := h oc.extents fun r hr => hr
    exact ⟨d', used, h1, h2, h3, h4, h5, h6⟩
  intro rs
  induction rs using List.reverseRecOn with
  | nil =>
    intro _
    exact ⟨(d, []), rfl, rfl, hd, fun l _ => rfl, fun l => by simp [lookupIn], by simp⟩
  | append_singleton rs r ih =>
    intro hrs
    obtain ⟨acc, hacc, hinv⟩ := ih fun r' hr' => hrs r' (List.mem_append_left _ hr')
    obtain ⟨-, bytes, hb, hlen⟩ := hoc r (hrs r (List.mem_append_right _ (List.mem_singleton_self _)))
    obtain ⟨acc', hacc', hinv'⟩ := hinv.fillRecord hb hlen
    exact ⟨acc', by simp [List.foldlM_append, hacc, hacc'], hinv'⟩

/-! ## Writes -/

/-- `recordBytes` reads only the record's slice of the body, so a longer body keeps it. -/
theorem recordBytes_append_body {lz : Lz4} {oc oc' : SegmentCreator} {t : List UInt8}
    (hb : oc'.body = oc.body ++ t) {r : ExtentHeader} (hr : r.offset + r.size ≤ oc.body.length) :
    oc'.recordBytes lz r = oc.recordBytes lz r := by
  simp only [recordBytes, hb, bytesAt_append_left _ hr]

/-- What records hold for a block is fixed by what each of them decodes to. -/
theorem lookupIn_congr {lz : Lz4} {oc oc' : SegmentCreator} {rs : List ExtentHeader}
    (h : ∀ r ∈ rs, oc'.recordBytes lz r = oc.recordBytes lz r) (l : ℕ) :
    oc'.lookupIn lz rs l = oc.lookupIn lz rs l :=
  List.foldl_ext _ _ _ fun _ r hr => by rw [h r hr]

/-- One block written adds one record for it, over the block's stored bytes at the end of the
body; the record decodes to the block. -/
theorem writeBlock_eq {lz : Lz4} (hlz : lz.Inverts) (oc : SegmentCreator) (lba : ℕ) (blk : Block) :
    ∃ r : ExtentHeader, oc.writeBlock lz lba blk =
        ⟨oc.extents ++ [r], oc.body ++ (storedAs lz blk).2⟩ ∧ r.extent = ⟨lba, 1⟩ ∧
      r.offset + r.size = (oc.body ++ (storedAs lz blk).2).length ∧
      recordBytes lz ⟨oc.extents ++ [r], oc.body ++ (storedAs lz blk).2⟩ r = some blk := by
  have hdec := decodeBlock_storedAs hlz blk
  unfold writeBlock
  unfold storedAs at hdec ⊢
  split_ifs at hdec ⊢ with he
  · refine ⟨⟨⟨lba, 1⟩, Empty, 0, 0, oc.body.length⟩, by simp, rfl, by simp, ?_⟩
    simp [recordBytes, he, emptyBlock]
  · refine ⟨_, rfl, rfl, by simp, ?_⟩
    have hflags : (storeBlock lz blk).2 ≠ Empty := by
      unfold storeBlock; split_ifs <;> (dsimp only; decide)
    simpa [recordBytes, hflags] using hdec

/-- One block written keeps `Wf`, and the creator then holds the block at its LBA. -/
theorem writeBlock_spec {lz : Lz4} (hlz : lz.Inverts) {oc : SegmentCreator} (hoc : oc.Wf lz)
    (lba : ℕ) {blk : Block} (hblk : blk.length = BlockSize) :
    (oc.writeBlock lz lba blk).Wf lz ∧
      ∀ l, (oc.writeBlock lz lba blk).lookup lz l = if l = lba then some blk else oc.lookup lz l := by
  obtain ⟨r, hw, hre, hrs, hrb⟩ := writeBlock_eq hlz oc lba blk
  have hold : ∀ r' ∈ oc.extents,
      recordBytes lz ⟨oc.extents ++ [r], oc.body ++ (storedAs lz blk).2⟩ r' = oc.recordBytes lz r' :=
    fun r' hr' => recordBytes_append_body rfl (hoc r' hr').1
  rw [hw]
  refine ⟨fun r' hr' => ?_, fun l => ?_⟩
  · rcases List.mem_append.mp hr' with hr' | hr'
    · obtain ⟨hin, bytes, hb, hlen⟩ := hoc r' hr'
      exact ⟨by simp; omega, bytes, (hold r' hr').trans hb, hlen⟩
    · rw [List.mem_singleton.mp hr']
      exact ⟨hrs.le, blk, hrb, by simp [hre, hblk]⟩
  · rw [lookup, lookupIn_append_singleton, lookupIn_congr hold, hre, hrb]
    by_cases hl : l = lba
    · subst hl
      simp [Extent.mem_iff, RangeData.block, bytesAt, ← hblk]
    · simp [Extent.mem_iff, hl, lookup]
      omega

/-- Writing a well-formed range keeps `Wf`, and the creator then holds each of its blocks. -/
theorem writeExtent_spec {lz : Lz4} (hlz : lz.Inverts) {oc : SegmentCreator} (hoc : oc.Wf lz)
    {data : RangeData} (hd : data.Wf) :
    (oc.writeExtent lz data).Wf lz ∧ ∀ l, (oc.writeExtent lz data).lookup lz l =
      if l ∈ data.extent then some (data.block l) else oc.lookup lz l := by
  -- The first `n` blocks written, by induction on `n`.
  suffices h : ∀ n ≤ data.extent.blocks,
      let oc' := (List.range n).foldl
        (fun oc i => oc.writeBlock lz (data.extent.lba + i) (data.block (data.extent.lba + i))) oc
      oc'.Wf lz ∧ ∀ l, oc'.lookup lz l = if data.extent.lba ≤ l ∧ l < data.extent.lba + n
        then some (data.block l) else oc.lookup lz l from h _ le_rfl
  intro n hn
  induction n with
  | zero => exact ⟨hoc, fun l => by rw [if_neg (by omega)]; rfl⟩
  | succ n ih =>
    obtain ⟨hwf, hlook⟩ := ih (by omega)
    have hblk := RangeData.length_block hd
      (show data.extent.lba + n ∈ data.extent from Extent.mem_iff.mpr ⟨by omega, by omega⟩)
    obtain ⟨hwf', hlook'⟩ := writeBlock_spec hlz hwf (data.extent.lba + n) hblk
    simp only [List.range_succ, List.foldl_append, List.foldl_cons, List.foldl_nil]
    refine ⟨hwf', fun l => ?_⟩
    rw [hlook', hlook]
    by_cases hl : l = data.extent.lba + n
    · subst hl; simp
    · simp only [if_neg hl]
      congr 1
      apply propext
      omega

/-- `ZeroBlocks` keeps `Wf`, and the creator then holds zeros at every block of the extent. -/
theorem zeroBlocks_spec {lz : Lz4} {oc : SegmentCreator} (hoc : oc.Wf lz) (rng : Extent) :
    (oc.zeroBlocks rng).Wf lz ∧ ∀ l, (oc.zeroBlocks rng).lookup lz l =
      if l ∈ rng then some emptyBlock else oc.lookup lz l := by
  have hold : ∀ r ∈ oc.extents, (oc.zeroBlocks rng).recordBytes lz r = oc.recordBytes lz r :=
    fun r _ => rfl
  have hnew : (oc.zeroBlocks rng).recordBytes lz ⟨rng, Empty, 0, 0, oc.body.length⟩ =
      some (RangeData.new rng).data := rfl
  refine ⟨fun r hr => ?_, fun l => ?_⟩
  · rcases List.mem_append.mp hr with hr | hr
    · obtain ⟨hin, bytes, hb, hlen⟩ := hoc r hr
      exact ⟨hin, bytes, (hold r hr).trans hb, hlen⟩
    · rw [List.mem_singleton.mp hr]
      exact ⟨le_rfl, _, hnew, RangeData.wf_new rng⟩
  · rw [lookup, show (oc.zeroBlocks rng).extents = oc.extents ++ [⟨rng, Empty, 0, 0, oc.body.length⟩]
      from rfl, lookupIn_append_singleton, lookupIn_congr hold, hnew]
    split_ifs with hl
    · exact congrArg some (RangeData.block_new hl)
    · rfl

/-! ## The records the writes make -/

/-- The records `WriteExtent` and `ZeroBlocks` make: non-empty; an `Empty` one with no bytes, any
other `Uncompressed` or `Compressed`, with bytes, and with its extent's bytes as `RawSize`. -/
def RecordsOk (oc : SegmentCreator) : Prop :=
  ∀ r ∈ oc.extents, 0 < r.extent.blocks ∧ (r.flags = Empty ∧ r.size = 0 ∨
    (r.flags = Uncompressed ∨ r.flags = Compressed) ∧ 0 < r.size ∧
      r.rawSize = r.extent.blocks * BlockSize)

/-- One block written keeps `RecordsOk`. -/
theorem RecordsOk.writeBlock {lz : Lz4} {oc : SegmentCreator} (h : oc.RecordsOk) (lba : ℕ)
    {blk : Block} (hblk : blk.length = BlockSize) : (oc.writeBlock lz lba blk).RecordsOk := by
  intro r hr
  unfold SegmentCreator.writeBlock at hr
  split_ifs at hr with he <;> rcases List.mem_append.mp hr with hr | hr
  · exact h r hr
  · rw [List.mem_singleton.mp hr]; exact ⟨Nat.one_pos, .inl ⟨rfl, rfl⟩⟩
  · exact h r hr
  · rw [List.mem_singleton.mp hr]
    refine ⟨Nat.one_pos, .inr ?_⟩
    unfold storeBlock
    split_ifs with hc
    · exact ⟨.inr rfl, hc.1, by simp [hblk]⟩
    · exact ⟨.inl rfl, by simp [hblk, BlockSize_eq], by simp [hblk]⟩

/-- Writing a well-formed range keeps `RecordsOk`. -/
theorem RecordsOk.writeExtent {lz : Lz4} {oc : SegmentCreator} (h : oc.RecordsOk)
    {data : RangeData} (hd : data.Wf) : (oc.writeExtent lz data).RecordsOk :=
  List.foldlRecOn (motive := RecordsOk) _ _ _ h fun oc' h' i hi =>
    h'.writeBlock _ (RangeData.length_block hd (show data.extent.lba + i ∈ data.extent from
      Extent.mem_iff.mpr ⟨by omega, by have := List.mem_range.mp hi; omega⟩))

/-- `ZeroBlocks` of a non-empty extent keeps `RecordsOk`. -/
theorem RecordsOk.zeroBlocks {oc : SegmentCreator} (h : oc.RecordsOk) {rng : Extent}
    (hrng : 0 < rng.blocks) : (oc.zeroBlocks rng).RecordsOk := by
  intro r hr
  rcases List.mem_append.mp hr with hr | hr
  · exact h r hr
  · rw [List.mem_singleton.mp hr]; exact ⟨hrng, .inl ⟨rfl, rfl⟩⟩

/-- The latest of the records `rs` holding block `l`. -/
def latestRecord (rs : List ExtentHeader) (l : ℕ) : Option ExtentHeader :=
  rs.foldl (fun acc r => if l ∈ r.extent then some r else acc) none

theorem latestRecord_append_singleton (rs : List ExtentHeader) (r : ExtentHeader) (l : ℕ) :
    latestRecord (rs ++ [r]) l = if l ∈ r.extent then some r else latestRecord rs l := by
  simp [latestRecord, List.foldl_append]

/-- What records hold for a block is what the latest of them holding it decodes to. -/
theorem lookupIn_eq_latestRecord (lz : Lz4) (oc : SegmentCreator) (rs : List ExtentHeader)
    (l : ℕ) : oc.lookupIn lz rs l = (latestRecord rs l).bind fun r =>
      (oc.recordBytes lz r).map fun bytes => (⟨r.extent, bytes⟩ : RangeData).block l := by
  induction rs using List.reverseRecOn with
  | nil => rfl
  | append_singleton rs r ih =>
    rw [lookupIn_append_singleton, latestRecord_append_singleton, ih]
    split_ifs <;> rfl

/-- The latest record holding a block is one of the records, and holds it. -/
theorem latestRecord_mem {rs : List ExtentHeader} {l : ℕ} {r : ExtentHeader}
    (h : latestRecord rs l = some r) : r ∈ rs ∧ l ∈ r.extent := by
  induction rs using List.reverseRecOn with
  | nil => cases h
  | append_singleton rs r' ih =>
    rw [latestRecord_append_singleton] at h
    split_ifs at h with hl
    · cases h; exact ⟨List.mem_append_right _ (List.mem_singleton_self _), hl⟩
    · exact ⟨List.mem_append_left _ (ih h).1, (ih h).2⟩

/-! ## Flush -/

end SegmentCreator

/-- `ExtentLocation`: a record's header and the segment it is stored in. -/
structure ExtentLocation extends ExtentHeader where
  segment : SegmentId
deriving DecidableEq, Repr

/-- Modelled from the spec: `SegmentStats`, of which the registry reads only `LiveBlocks`. -/
structure SegmentStats where
  liveBlocks : ℤ := 0
deriving DecidableEq, Repr

/-- Modelled from the spec: one header record of a segment: `varint(lba)`, `u8(flags)`,
`varint(size)`, `varint(offset)`, then the v2 fields `varint(rawSize)` and `varint(blocks)`. -/
def ExtentHeader.record (r : ExtentHeader) : List UInt8 :=
  putUvarint r.extent.lba ++ r.flags :: (putUvarint r.size ++ putUvarint r.offset ++
    putUvarint r.rawSize ++ putUvarint r.extent.blocks)

namespace SegmentCreator

/-- The header records of the segment, one per record in order. -/
def header (oc : SegmentCreator) : List UInt8 := (oc.extents.map ExtentHeader.record).flatten

/-- `dataBegin`: where the body starts in the segment. -/
def dataBegin (oc : SegmentCreator) : ℕ := 8 + oc.header.length

/-- Modelled from the spec: the segment `Flush` writes: `u32 entryCount`, `u32 dataBegin`, the
header records, then the body. -/
def segmentBytes (oc : SegmentCreator) : List UInt8 :=
  putBE 4 oc.extents.length ++ putBE 4 oc.dataBegin ++ oc.header ++ oc.body

/-- Modelled from the spec: the `ExtentLocation`s `Flush` returns, each record with its offset
made absolute (`dataBegin + offset`), in segment `seg`. -/
def locations (oc : SegmentCreator) (seg : SegmentId) : List ExtentLocation :=
  oc.extents.map fun r => ⟨{ r with offset := oc.dataBegin + r.offset }, seg⟩

/-- Modelled from the spec: `Flush(sa, seg)` when it succeeds: the segment it uploads, the
locations and the stats, with no live block yet: `UpdateBatch` counts them as it installs. -/
def flush (oc : SegmentCreator) (seg : SegmentId) :
    List UInt8 × List ExtentLocation × SegmentStats :=
  (oc.segmentBytes, oc.locations seg, {})

/-- The segment is the body after `dataBegin` bytes. -/
theorem length_segmentBytes (oc : SegmentCreator) :
    oc.segmentBytes.length = oc.dataBegin + oc.body.length := by
  simp only [segmentBytes, dataBegin, List.length_append, length_putBE]

/-- Below `2^32` bytes of segment, every location `Flush` returns ends below `2^32`: its offset
and size fit their `uint32` fields without wrapping. -/
theorem locations_lt {lz : Lz4} {oc : SegmentCreator} (hoc : oc.Wf lz)
    (hF : oc.segmentBytes.length < 2 ^ 32) (seg : SegmentId) :
    ∀ e ∈ oc.locations seg, e.offset + e.size < 2 ^ 32 := by
  intro e he
  obtain ⟨r, hr, rfl⟩ := List.mem_map.mp he
  have hin := (hoc r hr).1
  rw [length_segmentBytes] at hF
  dsimp only
  omega

/-- The body's bytes sit in the segment `dataBegin` bytes further on. -/
theorem bytesAt_segmentBytes (oc : SegmentCreator) (off n : ℕ) :
    bytesAt oc.segmentBytes (oc.dataBegin + off) n = bytesAt oc.body off n := by
  have hlen : (putBE 4 oc.extents.length ++ putBE 4 oc.dataBegin ++ oc.header).length =
      oc.dataBegin := by
    simp only [List.length_append, length_putBE, dataBegin]
  unfold segmentBytes
  nth_rewrite 2 [← hlen]
  rw [bytesAt_append_right]

end SegmentCreator

end Lsvd
