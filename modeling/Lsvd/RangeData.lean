import Lsvd.Extent

/-!
# Range data

`RangeData` is an extent with its bytes, `BlockSize` of them for each block. Its operations are
not among the sources and are modelled from the spec: `NewRangeData` zero-fills, `SubRange` is
the part of the bytes for an extent within the range, a view of the same bytes in Go, and a write
through that view is `writeBack`. Go's `copy` is `goCopy`.

A well-formed range data (`Wf`) has exactly its blocks' bytes; block `l` of it is `block l`. The
lemmas here say what each operation does to each block (`block_newRangeData`,
`block_subRange`, `block_writeBack`), which is all the read path's proofs use of them.
-/

namespace Lsvd

theorem BlockSize_eq : BlockSize = 4096 := rfl

/-- `RangeData`: an extent and its bytes, `BlockSize` for each block of the extent. -/
structure RangeData where
  extent : Extent
  data : List UInt8
deriving DecidableEq, Repr

namespace RangeData

/-- The bytes are exactly those of the extent's blocks. -/
def Wf (d : RangeData) : Prop := d.data.length = d.extent.blocks * BlockSize

/-- Block `l` of the range, for `l` in its extent. -/
def block (d : RangeData) (l : ℕ) : Block :=
  bytesAt d.data ((l - d.extent.lba) * BlockSize) BlockSize

/-- Modelled from the spec: `NewRangeData(rng)`, the range with every block zero. -/
def new (rng : Extent) : RangeData := ⟨rng, List.replicate (rng.blocks * BlockSize) 0⟩

/-- Modelled from the spec: `SubRange(sub)`, the part of the range for an extent within it;
`none` for an extent outside. -/
def subRange (d : RangeData) (sub : Extent) : Option RangeData :=
  if sub ⊆ d.extent then
    some ⟨sub, bytesAt d.data ((sub.lba - d.extent.lba) * BlockSize) (sub.blocks * BlockSize)⟩
  else none

/-- A write through the sub-range view `v`: its bytes put back at their place in `d`. -/
def writeBack (d v : RangeData) : RangeData :=
  ⟨d.extent, d.data.take ((v.extent.lba - d.extent.lba) * BlockSize) ++ v.data ++
    d.data.drop ((v.extent.lba - d.extent.lba) * BlockSize + v.data.length)⟩

end RangeData

/-- Go's `copy(dst, src)`: as many bytes of `src` as fit in `dst`, then the rest of `dst`. -/
def goCopy (dst src : List UInt8) : List UInt8 := src.take dst.length ++ dst.drop src.length

/-- A copy from a source as long as the destination is the source. -/
theorem goCopy_of_length_eq {dst src : List UInt8} (h : src.length = dst.length) :
    goCopy dst src = src := by
  simp [goCopy, ← h]

namespace RangeData

theorem wf_new (rng : Extent) : (new rng).Wf := by simp [Wf, new]

/-- Every block of a new range is zero. -/
theorem block_new {rng : Extent} {l : ℕ} (hl : l ∈ rng) : (new rng).block l = emptyBlock := by
  rw [Extent.mem_iff] at hl
  simp only [block, new, emptyBlock, bytesAt, List.drop_replicate, List.take_replicate,
    BlockSize_eq]
  congr 1
  rw [Nat.sub_mul]
  have : (l - rng.lba) * 4096 + 4096 ≤ rng.blocks * 4096 := by omega
  omega

/-- Every block of a well-formed range has `BlockSize` bytes. -/
theorem length_block {d : RangeData} (hd : d.Wf) {l : ℕ} (hl : l ∈ d.extent) :
    (d.block l).length = BlockSize := by
  rw [Extent.mem_iff] at hl
  unfold Wf at hd
  simp only [block, length_bytesAt, hd, BlockSize_eq, Extent.stop] at hl ⊢
  omega

/-- A sub-range of a well-formed range succeeds for an extent within it. -/
theorem subRange_of_subset {d : RangeData} {sub : Extent} (h : sub ⊆ d.extent) :
    d.subRange sub =
      some ⟨sub, bytesAt d.data ((sub.lba - d.extent.lba) * BlockSize) (sub.blocks * BlockSize)⟩ :=
  if_pos h

/-- A sub-range of a well-formed range is well formed. -/
theorem wf_subRange {d v : RangeData} {sub : Extent} (hd : d.Wf) (h : d.subRange sub = some v) :
    v.Wf := by
  unfold subRange at h
  split at h
  · rename_i hs
    cases h
    rw [Extent.subset_iff] at hs
    simp only [Wf, length_bytesAt, hd, BlockSize_eq] at *
    rw [Nat.sub_mul, ← Nat.sub_mul] at *
    omega
  · cases h

/-- Each block of a sub-range is the block of the range. -/
theorem block_subRange {d v : RangeData} {sub : Extent} (h : d.subRange sub = some v) {l : ℕ}
    (hl : l ∈ sub) : v.block l = d.block l := by
  unfold subRange at h
  split at h
  · rename_i hs
    cases h
    rw [Extent.subset_iff] at hs
    rw [Extent.mem_iff] at hl
    have hoff : (sub.lba - d.extent.lba) * BlockSize + (l - sub.lba) * BlockSize =
        (l - d.extent.lba) * BlockSize := by
      rw [BlockSize_eq]; omega
    simp only [block]
    rw [bytesAt_bytesAt _ (by rw [BlockSize_eq]; omega), hoff]
  · cases h

/-- Writing back a well-formed view within a well-formed range keeps it well formed. -/
theorem wf_writeBack {d v : RangeData} (hd : d.Wf) (hv : v.Wf) (hs : v.extent ⊆ d.extent) :
    (d.writeBack v).Wf := by
  rw [Extent.subset_iff] at hs
  simp only [Wf, writeBack, List.length_append, List.length_take, List.length_drop, hd, hv,
    BlockSize_eq] at *
  omega

/-- After a write back through a well-formed view within a well-formed range, the blocks of the
view are the view's and the others are as they were. -/
theorem block_writeBack {d v : RangeData} (hd : d.Wf) (hv : v.Wf) (hs : v.extent ⊆ d.extent)
    {l : ℕ} (hl : l ∈ d.extent) :
    (d.writeBack v).block l = if l ∈ v.extent then v.block l else d.block l := by
  rw [Extent.subset_iff] at hs
  rw [Extent.mem_iff] at hl
  unfold Wf at hd hv
  simp only [block, writeBack, Extent.mem_iff]
  rw [BlockSize_eq] at hd hv ⊢
  have hP : (d.data.take ((v.extent.lba - d.extent.lba) * 4096)).length =
      (v.extent.lba - d.extent.lba) * 4096 := by simp; omega
  split_ifs with hv'
  · -- A block of the view: past the prefix, inside the view's bytes.
    rw [List.append_assoc, show (l - d.extent.lba) * 4096 =
      (d.data.take ((v.extent.lba - d.extent.lba) * 4096)).length + (l - v.extent.lba) * 4096 by
        rw [hP]; omega, bytesAt_append_right, bytesAt_append_left _ (by omega)]
  · by_cases hlt : l < v.extent.lba
    · -- A block before the view.
      rw [List.append_assoc, bytesAt_append_left _ (by omega), bytesAt_take (by omega)]
    · -- A block after the view.
      have hPV : (d.data.take ((v.extent.lba - d.extent.lba) * 4096) ++ v.data).length =
          (v.extent.lba - d.extent.lba) * 4096 + v.data.length := by simp [hP]
      rw [show (l - d.extent.lba) * 4096 = (d.data.take ((v.extent.lba - d.extent.lba) * 4096) ++
        v.data).length + ((l - d.extent.lba) * 4096 - ((v.extent.lba - d.extent.lba) * 4096 +
          v.data.length)) by rw [hPV]; omega, bytesAt_append_right, bytesAt_drop]
      congr 1
      omega

end RangeData

end Lsvd
