import Lsvd.Concurrency

/-!
# The sequential disk is one schedule of the interleaved one

`Disk.run` runs every operation to its end before the next: a seal's goroutine from `Flush` to
the end of its cleanup loop, a read from `fillFromWriteCache` to its last `readPartialExtent`.
`Sys.run` lets the writer, the goroutines and the readers take turns. Every run that
`readExtent_after_run` covers is one schedule of `Sys.run`: for each operation the writer's
actions, then the goroutine's or the read's steps, each to its end with nothing in between
(`run_is_interleaving`). The schedule ends on the disk the sequential run ends on, with nothing in
flight and the device after the operations as the writes acknowledged, so what holds over every
interleaving holds of the sequential runs.

The schedule is built per operation (`step_interleaving`) from one lemma per part of the code:
writes are `Action.write` (`run_writes`); a seal is `Action.replace` and `Action.setWhenClear`
(`run_sealAndFlush`), then the goroutine's steps, which are `flushSegment` (`run_flushSegment`)
with its cleanup loop one turn a step (`run_removeDeleted`); a read is `Action.readStart` and then
one `Action.readStep` per request and one to return (`run_readRequests`).
-/

namespace Lsvd

namespace Disk

/-- A disk with nothing in flight: the writer between operations, no goroutine and no read, and no
`ctx` done. -/
def Sys.idle (d : Disk) (acked : ℕ → Block) : Sys := ⟨d, none, [], [], acked, []⟩

section

variable {lz : Lz4} {env : WriteEnv} {acked : ℕ → Block}

/-! ## The goroutine -/

/-- The cleanup loop of a goroutine alone in flight is `removeDeleted`, one segment a step, the
goroutine returning where the loop ends. -/
theorem run_removeDeleted (oc : SegmentCreator) (segId : SegmentId) (segs : List SegmentId)
    (D : Disk) :
    ∃ n, Sys.run lz env ⟨D, none, [⟨oc, segId, .remove segs⟩], [], acked, []⟩
      (List.replicate n (.flushStep 0)) = some (Sys.idle (removeDeleted D segs).1 acked) := by
  induction segs generalizing D with
  | nil => exact ⟨1, rfl⟩
  | cons i is ih =>
    cases hr : removeSegmentFromVolume D.index i with
    | none =>
      exact ⟨1, by simp [Sys.run, Sys.step, Flusher.stuck, Flusher.step, hr, removeDeleted, setOrDrop, Sys.idle]⟩
    | some idx =>
      obtain ⟨n, hn⟩ := ih (removeSegmentIfPossible { D with index := some idx } i)
      exact ⟨n + 1, by simp [List.replicate_succ, Sys.run, Sys.step, Flusher.stuck, Flusher.step, hr, setOrDrop,
        removeDeleted, hn]⟩

/-- A goroutine alone in flight, from `Flush`, runs as `flushSegment` does. -/
theorem run_flushSegment {D D' : Disk} {oc : SegmentCreator} {segId : SegmentId}
    (hfs : flushSegment D oc segId = some D') :
    ∃ n, Sys.run lz env ⟨D, none, [⟨oc, segId, .flush⟩], [], acked, []⟩
      (List.replicate n (.flushStep 0)) = some (Sys.idle D' acked) := by
  obtain ⟨r, hup, rfl⟩ := Option.map_eq_some'.mp hfs
  obtain ⟨n, hn⟩ := @run_removeDeleted lz env acked oc segId _
    (((r.1.create segId r.2.2).install r.2.1 segId).clearPrev)
  refine ⟨5 + n, ?_⟩
  rw [List.replicate_add, Sys.run_append]
  simpa only [Sys.run, Sys.step, List.length_singleton, zero_lt_one, List.getElem?_eq_getElem,
    List.getElem_cons_zero, setOrDrop, List.take_zero, List.nil_append, zero_add,
    List.drop_succ_cons, List.drop_nil, List.append_nil, Flusher.stuck, Flusher.step, hup, Option.map_some',
    Option.toList_some, List.drop_one, Option.bind_some, Option.some_bind, List.tail_cons,
    cleanupDeletedSegments] using hn

/-! ## The writer -/

/-- A seal of a disk with a current creator, with its goroutine run to the end, is the writer's
replacing of the creator and its `SetWhenClear`, then the goroutine's steps. -/
theorem run_sealAndFlush {d d' : Disk} {r : Except WriteError Unit} (hcur : d.curOC.isSome)
    (hs : sealAndFlush env d = some (d', r)) :
    ∃ acts, (∀ a ∈ acts, a.Valid) ∧
      Sys.run lz env (Sys.idle d acked) acts = some (Sys.idle d' acked) := by
  obtain ⟨oc, hoc⟩ := Option.isSome_iff_exists.mp hcur
  unfold sealAndFlush at hs
  cases hseq : env.nextSeq d.curSeq with
  | none =>
    rw [(closeSegmentAsync_error env d).1 hseq] at hs
    cases hs
    exact ⟨[.replace], by simp [Action.Valid],
      by simp [Sys.run, Sys.step, Sys.idle, replaceCreator_eq, hseq]⟩
  | some seq =>
    cases hok : env.createOk seq with
    | false =>
      rw [(closeSegmentAsync_error env d).2 seq hseq hok] at hs
      cases hs
      exact ⟨[.replace], by simp [Action.Valid],
        by simp [Sys.run, Sys.step, Sys.idle, replaceCreator_eq, hseq, hok]⟩
    | true =>
      cases hprev : d.prevCache with
      | some _ => simp [closeSegmentAsync, replaceCreator, newSegmentCreator, setWhenClear, hseq,
          hok, hprev] at hs
      | none =>
        rw [closeSegmentAsync_ok hseq hok hprev, hoc] at hs
        simp only [Option.map_eq_some', Prod.mk.injEq] at hs
        obtain ⟨_, hfs, rfl, -⟩ := hs
        obtain ⟨n, hn⟩ := @run_flushSegment lz env acked _ _ _ _ hfs
        refine ⟨.replace :: .setWhenClear :: List.replicate n (.flushStep 0),
          by simp [Action.Valid, List.mem_replicate], ?_⟩
        simpa [Sys.run, Sys.step, Sys.idle, replaceCreator_eq, hseq, hok, hoc, Disk.setWhenClear,
          hprev] using hn

/-- The threshold check after a write: the disk with its new creator, sealed if full. -/
theorem run_sealIfFull {d d' : Disk} {oc : SegmentCreator} {r : Except WriteError Unit}
    (hs : sealIfFull env d oc = some (d', r)) :
    ∃ acts, (∀ a ∈ acts, a.Valid) ∧
      Sys.run lz env (Sys.idle { d with curOC := some oc } acked) acts = some (Sys.idle d' acked) := by
  unfold sealIfFull at hs
  split_ifs at hs
  · exact run_sealAndFlush rfl hs
  · cases hs
    exact ⟨[], by simp, rfl⟩

/-- Writes of ranges, one action each, go to the current creator one after another, each
acknowledged. -/
theorem run_writes {d : Disk} {oc : SegmentCreator} (hcur : d.curOC = some oc)
    (ranges : List RangeData) (acked : ℕ → Block) :
    Sys.run lz env (Sys.idle d acked) (ranges.map .write) = some (Sys.idle
      { d with curOC := some (ranges.foldl (SegmentCreator.writeExtent lz) oc) }
      (ranges.foldl writeRange acked)) := by
  induction ranges generalizing d oc acked with
  | nil =>
    rw [List.map_nil, List.foldl_nil, List.foldl_nil, ← hcur]
    rfl
  | cons data ranges ih =>
    simpa [Sys.run, Sys.step, Sys.idle, hcur] using
      ih (show Disk.curOC { d with curOC := some (oc.writeExtent lz data) } = _ from rfl)
        (writeRange acked data)

/-! ## A read -/

/-- A reader alone in flight takes its requests one a step, as the loop of `ReadExtent` over them
does, and returns at one more step. -/
theorem run_readRequests (start : Disk) (reqs : List ReadRequest) {data data' : RangeData}
    {D D' : Disk}
    (h : reqs.foldlM (fun (acc : RangeData × Disk) o =>
      readPartialExtent lz (s3Reads D.objects) acc.2 o.pe o.extents acc.1) (data, D) =
        .ok (data', D')) :
    Sys.run lz env ⟨D, none, [], [⟨data, reqs, start⟩], acked, []⟩
      (List.replicate (reqs.length + 1) (.readStep 0)) = some (Sys.idle D' acked) := by
  induction reqs generalizing data D with
  | nil =>
    cases h
    rfl
  | cons req reqs ih =>
    obtain ⟨⟨data₁, D₁⟩, h₁, hrest⟩ := bind_eq_ok.mp h
    obtain ⟨c, o, rfl⟩ := readPartialExtent_caches h₁
    simpa [Sys.run, Sys.step, Reader.step, h₁, setOrDrop] using ih hrest

/-- A read that returns is its start and then its reader's steps. -/
theorem run_readExtent {d d' : Disk} {rng : Extent} {data : RangeData}
    (h : readExtent lz (s3Reads d.objects) d rng = .ok (data, d')) :
    ∃ acts, (∀ a ∈ acts, a.Valid) ∧
      Sys.run lz env (Sys.idle d acked) acts = some (Sys.idle d' acked) := by
  obtain ⟨⟨data₁, remaining⟩, hfill, h⟩ := bind_eq_ok.mp h
  by_cases hrem : remaining = []
  · simp only [hrem, if_true, pure, Except.pure, Except.ok.injEq, Prod.mk.injEq] at h
    obtain ⟨-, rfl⟩ := h
    exact ⟨[.readStart rng], by simp [Action.Valid],
      by simp [Sys.run, Sys.step, Sys.idle, hfill, hrem]⟩
  · simp only [hrem, if_false] at h
    refine ⟨.readStart rng :: List.replicate ((readRequests d.lba2pba remaining).length + 1)
      (.readStep 0), by simp [Action.Valid, List.mem_replicate], ?_⟩
    simpa [Sys.run, Sys.step, Sys.idle, hfill, hrem] using run_readRequests d _ h

/-! ## Operations and runs -/

/-- One operation on a disk with a current creator is an interleaving of valid actions, from the
disk with nothing in flight to the disk after it with nothing in flight, acknowledging what the
operation does to the device. -/
theorem step_interleaving {d d' : Disk} {dev : ℕ → Block} (hcur : d.curOC.isSome) {op : Op}
    (hop : op.Valid) (hs : step lz env d op = some d') :
    ∃ acts, (∀ a ∈ acts, a.Valid) ∧
      Sys.run lz env (Sys.idle d dev) acts = some (Sys.idle d' (op.apply dev)) := by
  obtain ⟨oc, hoc⟩ := Option.isSome_iff_exists.mp hcur
  cases op with
  | writeExtent data =>
    obtain ⟨⟨_, r⟩, hw, rfl⟩ := Option.map_eq_some'.mp hs
    rw [Disk.writeExtent, hoc] at hw
    obtain ⟨acts, hval, hrun⟩ := run_sealIfFull hw
    refine ⟨.write data :: acts, List.forall_mem_cons.mpr ⟨hop, hval⟩, ?_⟩
    rw [← List.singleton_append, Sys.run_append, show [Action.write data] = [data].map .write from
      rfl, run_writes hoc, Option.some_bind]
    exact hrun
  | writeExtents ranges =>
    obtain ⟨⟨_, r⟩, hw, rfl⟩ := Option.map_eq_some'.mp hs
    rw [Disk.writeExtents, hoc] at hw
    obtain ⟨acts, hval, hrun⟩ := run_sealIfFull hw
    refine ⟨ranges.map .write ++ acts, fun a ha => ?_, ?_⟩
    · rcases List.mem_append.mp ha with ha | ha
      · obtain ⟨data, hdata, rfl⟩ := List.mem_map.mp ha
        exact hop data hdata
      · exact hval a ha
    · rw [Sys.run_append, run_writes hoc, Option.some_bind]
      exact hrun
  | zeroBlocks rng =>
    cases hs
    exact ⟨[.zero rng], by simpa [Action.Valid] using hop,
      by simp [Sys.run, Sys.step, Sys.idle, hoc, Disk.zeroBlocks, Op.apply]⟩
  | closeSegment =>
    obtain ⟨⟨_, r⟩, hseal, rfl⟩ := Option.map_eq_some'.mp hs
    exact run_sealAndFlush hcur hseal
  | readExtent rng =>
    simp only [step] at hs
    split at hs
    · cases hs
      exact run_readExtent ‹_›
    · cases hs
      exact ⟨[], by simp, rfl⟩

/-- A run of valid operations on a disk that implements a device, with an id for each seal, is
an interleaving of valid actions from the disk with nothing in flight to the disk the run returns
with nothing in flight, acknowledging the device after the operations. -/
theorem run_interleaving (hlz : lz.Inverts) {d : Disk} {dev : ℕ → Block} (h : Refines lz d dev)
    {ops : List Op} (hops : ∀ op ∈ ops, op.Valid) (henv : reliable env d.curSeq ops.length = true) :
    ∃ d', run lz env d ops = some d' ∧ ∃ acts, (∀ a ∈ acts, a.Valid) ∧
      Sys.run lz env (Sys.idle d dev) acts = some (Sys.idle d' (ops.foldl Op.apply dev)) := by
  induction ops generalizing d dev with
  | nil => exact ⟨d, rfl, [], by simp, rfl⟩
  | cons op ops ih =>
    have hop := hops op (List.mem_cons_self _ _)
    obtain ⟨d₁, hstep, h₁, henv₁⟩ := step_refines hlz h henv hop
    obtain ⟨oc, hcur, -⟩ := h.inv.cur
    obtain ⟨acts₁, hval₁, hrun₁⟩ := @step_interleaving lz env d d₁ dev (by simp [hcur]) op hop hstep
    obtain ⟨d₂, hrun, acts₂, hval₂, hrun₂⟩ :=
      ih h₁ (fun x hx => hops x (List.mem_cons_of_mem _ hx)) henv₁
    refine ⟨d₂, by simp [run, hstep, hrun], acts₁ ++ acts₂, fun a ha => ?_, ?_⟩
    · rcases List.mem_append.mp ha with ha | ha
      exacts [hval₁ a ha, hval₂ a ha]
    · rw [Sys.run_append, hrun₁, Option.some_bind]
      exact hrun₂

end

/-- Every run of valid operations of the single writer and the readers from a new volume, each
seal's flush run to its end and an id drawn for each seal, returns, and is one interleaving of
valid actions of the writer, the flush goroutines and the readers: it reaches the disk the run
returns, with the writer between operations, no goroutine and no read in flight, and the device
after the operations as the writes acknowledged. -/
theorem run_is_interleaving {lz : Lz4} (hlz : lz.Inverts) {env : WriteEnv} {s0 : SegmentId}
    {ops : List Op} (hops : ∀ op ∈ ops, op.Valid) (henv : reliable env s0 ops.length = true) :
    ∃ d, run lz env (init s0) ops = some d ∧ ∃ acts, (∀ a ∈ acts, a.Valid) ∧
      Sys.run lz env (Sys.init s0) acts = some ⟨d, none, [], [], device ops, []⟩ :=
  run_interleaving hlz (init_refines lz s0) hops henv

/-- Block 0 written with ones, sealed, and block 1 zeroed, as one interleaving. -/
theorem run_is_interleaving_write_seal_zero :
    Lz4.never.Inverts ∧
      (∀ op ∈ [Op.writeExtent ⟨⟨0, 1⟩, onesBlock⟩, .closeSegment, .zeroBlocks ⟨1, 1⟩], op.Valid) ∧
      reliable countingEnv 0 3 = true ∧
      ∃ d, run Lz4.never countingEnv (init 0)
          [.writeExtent ⟨⟨0, 1⟩, onesBlock⟩, .closeSegment, .zeroBlocks ⟨1, 1⟩] = some d ∧
        ∃ acts, (∀ a ∈ acts, a.Valid) ∧ Sys.run Lz4.never countingEnv (Sys.init 0) acts =
          some ⟨d, none, [], [],
            device [.writeExtent ⟨⟨0, 1⟩, onesBlock⟩, .closeSegment, .zeroBlocks ⟨1, 1⟩], []⟩ := by
  have hops : ∀ op ∈ [Op.writeExtent ⟨⟨0, 1⟩, onesBlock⟩, .closeSegment, .zeroBlocks ⟨1, 1⟩],
      op.Valid := by
    simp [Op.Valid, RangeData.Wf, onesBlock]
  have henv : reliable countingEnv 0 3 = true := by decide
  exact ⟨Lz4.never_inverts, hops, henv, run_is_interleaving Lz4.never_inverts hops henv⟩

end Disk

end Lsvd
