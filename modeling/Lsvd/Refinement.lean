import Lsvd.Disk.Invariant

/-!
# The disk refines a block device

The abstract model is what the disk is for: a block device, a total map from LBA to block, all
zeros on a new volume. A write sets the blocks of its range (`writeRange`), `ZeroBlocks` zeroes its
extent (`zeroRange`), and a seal or a read leaves the device as it was (`Op.apply`). `device ops`
is the device after the operations.

`Refines` relates a disk to a device: the disk keeps `Disk.Inv`, and its `view`, the layered
lookup `ReadExtent` performs, is the device. `Disk.init`, a new volume, is related to the zero
device (`init_refines`). One operation takes related states to related states (`step_refines`):
a write goes to the current creator, which then shows the device after the write over the map
(`Shows.writeExtent`, `Shows.zeroBlocks`); a seal, a flush and a cleanup keep `view`
(`Disk.Inv.sealAndFlush`); a read keeps it too. By induction on the operations a whole run does
(`run_refines`), and a read at its end returns the device's blocks.

The writer's environment draws one id per seal: `reliable env s n` says that `n` ids can be drawn
after `s`, each above the one before, each with `NewSegmentCreator` succeeding. A run of `n`
operations seals at most `n` times.
-/

namespace Lsvd

/-- The device after a write of `data`: the blocks of its range. -/
def writeRange (dev : ℕ → Block) (data : RangeData) : ℕ → Block :=
  fun l => if l ∈ data.extent then data.block l else dev l

/-- The device after `ZeroBlocks(rng)`: zeros over the extent. -/
def zeroRange (dev : ℕ → Block) (rng : Extent) : ℕ → Block :=
  fun l => if l ∈ rng then emptyBlock else dev l

namespace Disk

/-- What an operation does to the device. -/
def Op.apply (dev : ℕ → Block) : Op → ℕ → Block
  | .writeExtent data => writeRange dev data
  | .writeExtents ranges => ranges.foldl writeRange dev
  | .zeroBlocks rng => zeroRange dev rng
  | .closeSegment => dev
  | .readExtent _ => dev

/-- The device after the operations, from all zeros. -/
def device (ops : List Op) : ℕ → Block := ops.foldl Op.apply fun _ => emptyBlock

/-- The operations the refinement covers: writes of well-formed ranges, and `ZeroBlocks` of at
least one block. -/
def Op.Valid : Op → Prop
  | .writeExtent data => data.Wf
  | .writeExtents ranges => ∀ data ∈ ranges, data.Wf
  | .zeroBlocks rng => 0 < rng.blocks
  | .closeSegment => True
  | .readExtent _ => True

/-- Whether `n` more ids can be drawn after `s`, each above the one before and each with
`NewSegmentCreator` succeeding. -/
def reliable (env : WriteEnv) : SegmentId → ℕ → Bool
  | _, 0 => true
  | s, n + 1 =>
    match env.nextSeq s with
    | none => false
    | some s' => decide (s < s') && env.createOk s' && reliable env s' n

/-- `NewDisk` on a new volume: an empty creator under the first id drawn, `s0`, an empty map,
registry and caches, and nothing in the store. -/
def init (s0 : SegmentId) : Disk :=
  ⟨some {}, s0, none, {}, {}, {}, [], fun _ => none, none⟩

theorem reliable_succ {env : WriteEnv} {s : SegmentId} {n : ℕ} :
    reliable env s (n + 1) = true ↔ ∃ s', env.nextSeq s = some s' ∧ s < s' ∧
      env.createOk s' = true ∧ reliable env s' n = true := by
  rw [reliable]
  cases env.nextSeq s <;> simp [and_assoc]

/-- Ids that can be drawn `n + 1` times can be drawn `n` times. -/
theorem reliable_mono {env : WriteEnv} {s : SegmentId} {n : ℕ} (h : reliable env s (n + 1) = true) :
    reliable env s n = true := by
  induction n generalizing s with
  | zero => rfl
  | succ n ih =>
    obtain ⟨s', hs, hlt, hok, hrest⟩ := reliable_succ.mp h
    exact reliable_succ.mpr ⟨s', hs, hlt, hok, ih hrest⟩

/-- The disk implements the device: it keeps the invariant, and `view` is the device. -/
structure Refines (lz : Lz4) (d : Disk) (dev : ℕ → Block) : Prop where
  inv : Inv lz d
  view : ∀ l, d.view lz l = dev l

/-- The creator `oc`, over the layers `below` it, shows the device `dev`. -/
def Shows (lz : Lz4) (oc : SegmentCreator) (below dev : ℕ → Block) : Prop :=
  ∀ l, (oc.lookup lz l).getD (below l) = dev l

/-- A new volume is the zero device. -/
theorem init_refines (lz : Lz4) (s0 : SegmentId) : Refines lz (init s0) fun _ => emptyBlock := by
  refine ⟨⟨⟨{}, rfl, fun _ h => absurd h (List.not_mem_nil _),
      fun _ h => absurd h (List.not_mem_nil _)⟩, rfl, ⟨.nil, ?_, ?_⟩, ⟨?_, ?_⟩, ?_, ?_, ?_, ?_,
      ?_, rfl⟩, fun _ => rfl⟩ <;>
    simp [init, ExtentMap.Maps, CacheOk, ExtentCache.readExtent]

section

variable {lz : Lz4} {d : Disk} {dev : ℕ → Block} {oc : SegmentCreator}

/-- The current creator of a disk that implements a device shows it. -/
theorem Refines.shows (h : Refines lz d dev) (hcur : d.curOC = some oc) :
    Shows lz oc (d.storeView lz) dev :=
  fun l => (h.inv.view_eq hcur l).symm.trans (h.view l)

/-- A new current creator with well-formed records that shows a device makes the disk
implement it. -/
theorem Refines.setCur (h : Refines lz d dev) {oc' : SegmentCreator} {dev' : ℕ → Block}
    (hwf : oc'.Wf lz) (hrec : oc'.RecordsOk) (hs : Shows lz oc' (d.storeView lz) dev') :
    Refines lz { d with curOC := some oc' } dev' :=
  ⟨h.inv.setCur hwf hrec, fun l => ((h.inv.setCur hwf hrec).view_eq rfl l).trans (hs l)⟩

/-- A write of a well-formed range to a creator that shows a device shows the device after it. -/
theorem Shows.writeExtent (hlz : lz.Inverts) (hoc : oc.Wf lz) {below : ℕ → Block}
    (h : Shows lz oc below dev) {data : RangeData} (hd : data.Wf) :
    Shows lz (oc.writeExtent lz data) below (writeRange dev data) := by
  intro l
  rw [(SegmentCreator.writeExtent_spec hlz hoc hd).2, writeRange]
  split_ifs
  · rfl
  · exact h l

/-- Writes of well-formed ranges, one after another, keep the creator well formed and show the
device after them. -/
theorem Shows.foldl_writeExtent (hlz : lz.Inverts) {ranges : List RangeData}
    (hd : ∀ data ∈ ranges, data.Wf) (hoc : oc.Wf lz) (hrec : oc.RecordsOk) {below : ℕ → Block}
    (h : Shows lz oc below dev) :
    (ranges.foldl (SegmentCreator.writeExtent lz) oc).Wf lz ∧
      (ranges.foldl (SegmentCreator.writeExtent lz) oc).RecordsOk ∧
      Shows lz (ranges.foldl (SegmentCreator.writeExtent lz) oc) below (ranges.foldl writeRange dev) := by
  induction ranges generalizing oc dev with
  | nil => exact ⟨hoc, hrec, h⟩
  | cons data ranges ih =>
    have hdata := hd data (List.mem_cons_self _ _)
    exact ih (fun x hx => hd x (List.mem_cons_of_mem _ hx))
      (SegmentCreator.writeExtent_spec hlz hoc hdata).1 (hrec.writeExtent hdata)
      (h.writeExtent hlz hoc hdata)

/-- `ZeroBlocks` on a creator that shows a device shows the device with the extent zeroed. -/
theorem Shows.zeroBlocks (hoc : oc.Wf lz) {below : ℕ → Block} (h : Shows lz oc below dev)
    (rng : Extent) : Shows lz (oc.zeroBlocks rng) below (zeroRange dev rng) := by
  intro l
  rw [(SegmentCreator.zeroBlocks_spec hoc rng).2, zeroRange]
  split_ifs
  · rfl
  · exact h l

/-- The threshold check after a write: the disk with its new creator implements the device the
creator shows, whether or not it seals, and a seal uses up one id. -/
theorem Refines.sealIfFull (h : Refines lz d dev) {env : WriteEnv} {n : ℕ}
    (henv : reliable env d.curSeq (n + 1) = true) {oc' : SegmentCreator} {dev' : ℕ → Block}
    (hwf : oc'.Wf lz) (hrec : oc'.RecordsOk) (hs : Shows lz oc' (d.storeView lz) dev') :
    ∃ d', sealIfFull env d oc' = some (d', .ok ()) ∧ Refines lz d' dev' ∧
      reliable env d'.curSeq n = true := by
  have h' := h.setCur hwf hrec hs
  unfold Disk.sealIfFull
  split_ifs
  · obtain ⟨seq, hseq, hlt, hok, hrest⟩ := reliable_succ.mp henv
    obtain ⟨d', hseal, hinv, hcs, hview⟩ := h'.inv.sealAndFlush hseq hlt hok
    exact ⟨d', hseal, ⟨hinv, fun l => (hview l).trans (h'.view l)⟩, hcs ▸ hrest⟩
  · exact ⟨_, rfl, h', reliable_mono henv⟩

/-- One operation, valid, on a disk that implements a device returns a disk that implements the
device after it, using up at most one id. -/
theorem step_refines (hlz : lz.Inverts) (h : Refines lz d dev) {env : WriteEnv} {n : ℕ}
    (henv : reliable env d.curSeq (n + 1) = true) {op : Op} (hop : op.Valid) :
    ∃ d', step lz env d op = some d' ∧ Refines lz d' (op.apply dev) ∧
      reliable env d'.curSeq n = true := by
  obtain ⟨oc, hcur, hoc, hrec⟩ := h.inv.cur
  cases op with
  | writeExtent data =>
    obtain ⟨d', hw, h', hrest⟩ := h.sealIfFull henv (SegmentCreator.writeExtent_spec hlz hoc hop).1
      (hrec.writeExtent hop) ((h.shows hcur).writeExtent hlz hoc hop)
    exact ⟨d', by simp [step, Disk.writeExtent, hcur, hw], h', hrest⟩
  | writeExtents ranges =>
    obtain ⟨hwf, hrec', hs⟩ := (h.shows hcur).foldl_writeExtent hlz hop hoc hrec
    obtain ⟨d', hw, h', hrest⟩ := h.sealIfFull henv hwf hrec' hs
    exact ⟨d', by simp [step, Disk.writeExtents, hcur, hw], h', hrest⟩
  | zeroBlocks rng =>
    exact ⟨_, by simp [step, Disk.zeroBlocks, hcur],
      h.setCur (SegmentCreator.zeroBlocks_spec hoc rng).1 (hrec.zeroBlocks hop)
        ((h.shows hcur).zeroBlocks hoc rng), reliable_mono henv⟩
  | closeSegment =>
    obtain ⟨seq, hseq, hlt, hok, hrest⟩ := reliable_succ.mp henv
    obtain ⟨d', hseal, hinv, hcs, hview⟩ := h.inv.sealAndFlush hseq hlt hok
    exact ⟨d', by simp [step, hseal], ⟨hinv, fun l => (hview l).trans (h.view l)⟩, hcs ▸ hrest⟩
  | readExtent rng =>
    obtain ⟨data, c, o, hread, -, -, hinv⟩ := h.inv.readExtent rng
    exact ⟨_, by simp [step, hread], ⟨hinv, h.view⟩, reliable_mono henv⟩

/-- A run of valid operations on a disk that implements a device, with an id for each, returns a
disk that implements the device after them. -/
theorem run_refines (hlz : lz.Inverts) {env : WriteEnv} {ops : List Op}
    (hops : ∀ op ∈ ops, op.Valid) (h : Refines lz d dev)
    (henv : reliable env d.curSeq ops.length = true) :
    ∃ d', run lz env d ops = some d' ∧ Refines lz d' (ops.foldl Op.apply dev) := by
  induction ops generalizing d dev with
  | nil => exact ⟨d, rfl, h⟩
  | cons op ops ih =>
    obtain ⟨d₁, hstep, h₁, henv₁⟩ := step_refines hlz h henv (hops op (List.mem_cons_self _ _))
    obtain ⟨d₂, hrun, h₂⟩ := ih (fun x hx => hops x (List.mem_cons_of_mem _ hx)) h₁ henv₁
    exact ⟨d₂, by simp [run, hstep, hrun], h₂⟩

end

/-- Every run of valid operations of the single writer and the readers from a new volume, each
seal's flush run to its end and an id drawn for each seal, returns; and a read after it returns
without error, for every block of its range, the block of the device: the data of the latest
write covering it, or zeros if the latest operation covering it was `ZeroBlocks` or none did. -/
theorem readExtent_after_run {lz : Lz4} (hlz : lz.Inverts) {env : WriteEnv} {s0 : SegmentId}
    {ops : List Op} (hops : ∀ op ∈ ops, op.Valid) (henv : reliable env s0 ops.length = true)
    (rng : Extent) :
    ∃ d, run lz env (init s0) ops = some d ∧ ∃ data d',
      d.readExtent lz (s3Reads d.objects) rng = .ok (data, d') ∧ data.extent = rng ∧
      ∀ l ∈ rng, data.block l = device ops l := by
  obtain ⟨d, hrun, h⟩ := run_refines hlz hops (init_refines lz s0) henv
  obtain ⟨data, c, o, hread, hext, hblock, -⟩ := h.inv.readExtent rng
  exact ⟨d, hrun, data, _, hread, hext, fun l hl => (hblock l hl).trans (h.view l)⟩

/-- A store that draws ids one after another. -/
def countingEnv : WriteEnv where
  nextSeq s := if h : s.val + 1 < 2 ^ 128 then some ⟨s.val + 1, h⟩ else none
  createOk _ := true

/-- A block of ones written at block 0, then sealed, then block 1 zeroed: the run returns and a
read of blocks 0 and 1 returns the device's. -/
theorem readExtent_after_run_write_seal_zero :
    Lz4.never.Inverts ∧
      (∀ op ∈ [Op.writeExtent ⟨⟨0, 1⟩, onesBlock⟩, .closeSegment, .zeroBlocks ⟨1, 1⟩], op.Valid) ∧
      reliable countingEnv 0 3 = true ∧
      ∃ d, run Lz4.never countingEnv (init 0)
          [.writeExtent ⟨⟨0, 1⟩, onesBlock⟩, .closeSegment, .zeroBlocks ⟨1, 1⟩] = some d ∧
        ∃ data d', d.readExtent Lz4.never (s3Reads d.objects) ⟨0, 2⟩ = .ok (data, d') ∧
          data.extent = ⟨0, 2⟩ ∧ ∀ l ∈ (⟨0, 2⟩ : Extent), data.block l =
            device [.writeExtent ⟨⟨0, 1⟩, onesBlock⟩, .closeSegment, .zeroBlocks ⟨1, 1⟩] l := by
  have hops : ∀ op ∈ [Op.writeExtent ⟨⟨0, 1⟩, onesBlock⟩, .closeSegment, .zeroBlocks ⟨1, 1⟩],
      op.Valid := by
    simp [Op.Valid, RangeData.Wf, onesBlock]
  have henv : reliable countingEnv 0 3 = true := by decide
  exact ⟨Lz4.never_inverts, hops, henv,
    readExtent_after_run Lz4.never_inverts hops henv ⟨0, 2⟩⟩

end Disk

end Lsvd
