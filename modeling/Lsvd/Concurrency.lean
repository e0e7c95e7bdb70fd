import Lsvd.Refinement

/-!
# The writer, the flush goroutines and the readers, interleaved

`Disk.run` runs each seal's flush to its end before the next operation. Here each step is its
own: the writer's writes and the two halves of `closeSegmentAsync` around `SetWhenClear`
(`Action.replace`, `Action.setWhenClear`); each flush goroutine's `Flush`, `Create`,
`UpdateBatch`, `Clear`, `FindDeleted` and each turn of the cleanup loop (`Flusher.step`); each
reader's fill from the write caches with `Resolve` (`Action.readStart`), and each
`readPartialExtent` (`Reader.step`). A `Sys` holds the disk, the creator the writer holds between
the two halves, the goroutines and the readers in flight, and, as a ghost, the latest acknowledged
write of every block. A list of actions is an interleaving, and `Sys.run` runs it.

A goroutine runs with the `ctx` of the call that sealed its creator (`oc.Flush(ctx, d.sa, segId)`),
and the caller may cancel it at any point (`Action.cancel`). Once it is done every upload fails,
and the goroutine, which retries `Flush` for ever, makes no step again (`Flusher.stuck`). The store
calls after `Flush` are taken to succeed whatever the `ctx`.

Two things fail over some interleaving. Between the halves the sealed creator is in no layer that
`ReadExtent` consults, so a read misses a write acknowledged before the seal
(`replace_hides_acknowledged_write`). And an entry a reader has resolved is not protected from the
cleanup: a later flush that overwrites the entry's segment can remove the segment before the
reader reads it, and the read fails (`cleanup_removes_segment_being_read`, in `Lsvd.Coherence`,
where the layers show that the read's request has bytes).

What holds over every interleaving is the registry's safety (`Sys.Inv`, kept by every action): the
cleanup removes only segments that no entry of the map uses, so every entry with bytes is in a
stored segment. It rests on three facts. A segment is dead only once installed and with no live
block, so with no entry (`findDeleted_unmapped`). Only a goroutine's own batch adds entries, in its
own segment, which is not installed before (`Flusher.step_spec`). And the ids of the goroutines
are fresh, each above those in use, so no two goroutines share one (`Sys.next`). What the layers
of a read show over every interleaving is in `Lsvd.Coherence`.
-/

namespace Lsvd

namespace Disk

/-- Where a flush goroutine of `closeSegmentAsync` is. -/
inductive Stage
  /-- `oc.Flush(ctx, d.sa, segId)`, retried until it succeeds. -/
  | flush
  /-- `d.s.Create(segId, stats)`, with what `Flush` returned. -/
  | create (entries : List ExtentLocation) (stats : SegmentStats)
  /-- `d.lba2pba.UpdateBatch(entries, segId, d.s)`. -/
  | update (entries : List ExtentLocation)
  /-- `d.prevCache.Clear()`. -/
  | clear
  /-- `d.s.FindDeleted()`, the list the cleanup loop runs over. -/
  | findDeleted
  /-- The cleanup loop, with the segments it has left to remove. -/
  | remove (segs : List SegmentId)

/-- Whether a goroutine is before `Clear`, its creator still in the previous cache. -/
def Stage.pending : Stage → Bool
  | .findDeleted | .remove _ => false
  | _ => true

/-- A flush goroutine: the creator it flushes, its segment id, and where it is. -/
structure Flusher where
  oc : SegmentCreator
  segId : SegmentId
  stage : Stage

/-- One step of a flush goroutine: the disk after it and the goroutine then, `none` once it has
returned; `none` while `Flush` fails, which it retries. The cleanup returns at its first error.
The goroutine's `ctx` is the sealing call's: `Sys.step` takes no step of a goroutine in `Flush`
under a done one (`Flusher.stuck`). -/
def Flusher.step (d : Disk) (f : Flusher) : Option (Disk × Option Flusher) :=
  match f.stage with
  | .flush => (flushUpload d f.oc f.segId).map fun r =>
    (r.1, some { f with stage := .create r.2.1 r.2.2 })
  | .create es stats => some (d.create f.segId stats, some { f with stage := .update es })
  | .update es => some (d.install es f.segId, some { f with stage := .clear })
  | .clear => some (d.clearPrev, some { f with stage := .findDeleted })
  | .findDeleted => some (d, some { f with stage := .remove d.s.findDeleted })
  | .remove [] => some (d, none)
  | .remove (i :: is) =>
    match removeSegmentFromVolume d.index i with
    | none => some (d, none)
    | some idx =>
      some (removeSegmentIfPossible { d with index := some idx } i, some { f with stage := .remove is })

/-- Whether the goroutine is in `Flush` under a done `ctx`, given the ids of the seals whose `ctx` is
done: each upload then fails, and the loop retries it for ever. -/
def Flusher.stuck (cancelled : List SegmentId) (f : Flusher) : Bool :=
  match f.stage with
  | .flush => decide (f.segId ∈ cancelled)
  | _ => false

/-- A `ReadExtent` between `Resolve` and its reads: the range filled so far and the read requests
left, with, as a ghost, the disk it began on. -/
structure Reader where
  data : RangeData
  reqs : List ReadRequest
  start : Disk

/-- One `readPartialExtent` of a reader, on the stored objects: the disk after it and the reader
then, `none` once `ReadExtent` has returned. -/
def Reader.step (lz : Lz4) (d : Disk) (r : Reader) : Disk × Option Reader :=
  match r.reqs with
  | [] => (d, none)
  | req :: reqs =>
    match readPartialExtent lz (s3Reads d.objects) d req.pe req.extents r.data with
    | .ok (data, d') => (d', some { r with data := data, reqs := reqs })
    | .error _ => (d, none)

/-- The disk with the single writer, the flush goroutines and the readers in flight. -/
structure Sys where
  disk : Disk
  /-- The writer between replacing `d.curOC` and `SetWhenClear(oc)`: the creator and id it took. -/
  held : Option (Option SegmentCreator × SegmentId)
  flushers : List Flusher
  readers : List Reader
  /-- The latest acknowledged write of every block, a ghost for the statements. -/
  acked : ℕ → Block
  /-- The seals whose call's `ctx`, the one their goroutine runs with, is done. -/
  cancelled : List SegmentId

/-- What can happen next, by the writer, a goroutine or a reader. -/
inductive Action
  /-- `WriteExtent(data)` into the current creator, acknowledged when it returns. -/
  | write (data : RangeData)
  /-- `ZeroBlocks(rng)`. -/
  | zero (rng : Extent)
  /-- `closeSegmentAsync` up to `d.curOC, err = d.newSegmentCreator()`. -/
  | replace
  /-- `SetWhenClear(oc)`, waiting while the previous cache is full, then `go func()`. -/
  | setWhenClear
  /-- One step of the `i`-th goroutine. -/
  | flushStep (i : ℕ)
  /-- A `ReadExtent(rng)` up to `Resolve`. -/
  | readStart (rng : Extent)
  /-- One `readPartialExtent` of the `i`-th reader. -/
  | readStep (i : ℕ)
  /-- The `ctx` of the call that sealed segment `seg` done: cancelled, or past its deadline. -/
  | cancel (seg : SegmentId)

/-- The readers' actions: a read's start and its steps. -/
def Action.reads : Action → Bool
  | .readStart _ | .readStep _ => true
  | _ => false

/-- The list with its `i`-th element replaced by `x`, or dropped when `x` is `none`. -/
def setOrDrop {α : Type} (l : List α) (i : ℕ) (x : Option α) : List α :=
  l.take i ++ x.toList ++ l.drop (i + 1)

namespace Sys

/-- A new volume, with nothing in flight. -/
def init (s0 : SegmentId) : Sys := ⟨Disk.init s0, none, [], [], fun _ => emptyBlock, []⟩

/-- One action; `none` when it cannot happen: the writer busy, a goroutine or reader not there,
`SetWhenClear` waiting, `Flush` failing or under a done `ctx`, or a call through a `nil` creator. -/
def step (lz : Lz4) (env : WriteEnv) (S : Sys) : Action → Option Sys
  | .write data =>
    match S.held, S.disk.curOC with
    | none, some oc => some { S with
        disk := { S.disk with curOC := some (oc.writeExtent lz data) }
        acked := writeRange S.acked data }
    | _, _ => none
  | .zero rng =>
    match S.held, S.disk.curOC with
    | none, some oc => some { S with
        disk := { S.disk with curOC := some (oc.zeroBlocks rng) }
        acked := zeroRange S.acked rng }
    | _, _ => none
  | .replace =>
    match S.held with
    | some _ => none
    | none =>
      match replaceCreator env S.disk with
      | (d, .ok h) => some { S with disk := d, held := some h }
      | (d, .error _) => some { S with disk := d }
  | .setWhenClear =>
    match S.held with
    | some (some oc, segId) => (setWhenClear S.disk (some oc)).map fun d =>
      { S with disk := d, held := none, flushers := S.flushers ++ [⟨oc, segId, .flush⟩] }
    | _ => none
  | .flushStep i =>
    match S.flushers[i]? with
    | none => none
    | some f => if f.stuck S.cancelled then none else (f.step S.disk).map fun r =>
      { S with disk := r.1, flushers := setOrDrop S.flushers i r.2 }
  | .readStart rng =>
    match fillFromWriteCache lz S.disk (RangeData.new rng) with
    | .ok (data, remaining) => some { S with
        readers := if remaining = [] then S.readers
          else S.readers ++ [⟨data, readRequests S.disk.lba2pba remaining, S.disk⟩] }
    | .error _ => some S
  | .readStep i =>
    match S.readers[i]? with
    | none => none
    | some r => some { S with
        disk := (r.step lz S.disk).1
        readers := setOrDrop S.readers i (r.step lz S.disk).2 }
  | .cancel seg => some { S with cancelled := seg :: S.cancelled }

/-- The actions one after another: an interleaving. -/
def run (lz : Lz4) (env : WriteEnv) : Sys → List Action → Option Sys
  | S, [] => some S
  | S, a :: as => (S.step lz env a).bind fun S' => run lz env S' as

/-- The id the writer hands to the next goroutine: the one it holds, else `curSeq`. -/
def next (S : Sys) : SegmentId :=
  match S.held with
  | some (_, h) => h
  | none => S.disk.curSeq

end Sys

/-- The actions the safety covers: writes of well-formed ranges and `ZeroBlocks` of a block or
more. -/
def Action.Valid : Action → Prop
  | .write data => data.Wf
  | .zero rng => 0 < rng.blocks
  | _ => True

/-! ## Lists of goroutines -/

section

variable {α : Type} {l : List α} {i : ℕ} {a : α}

theorem eq_take_cons_drop (h : l[i]? = some a) : l = l.take i ++ a :: l.drop (i + 1) := by
  obtain ⟨hlt, rfl⟩ := List.getElem?_eq_some.mp h
  rw [← List.drop_eq_getElem_cons hlt, List.take_append_drop]

/-- An element of the list with its `i`-th replaced or dropped is the new one, or one before or
after it. -/
theorem mem_setOrDrop {x : Option α} {b : α} (hb : b ∈ setOrDrop l i x) :
    b ∈ x.toList ∨ b ∈ l.take i ∨ b ∈ l.drop (i + 1) := by
  simp only [setOrDrop, List.mem_append] at hb
  tauto

/-- An element other than the `i`-th stays when the `i`-th is replaced or dropped. -/
theorem mem_setOrDrop_of_ne {x : Option α} {b : α} (h : l[i]? = some a) (hb : b ∈ l)
    (hne : b ≠ a) : b ∈ setOrDrop l i x := by
  rw [eq_take_cons_drop h, List.mem_append, List.mem_cons] at hb
  simp only [setOrDrop, List.mem_append]
  rcases hb with hb | rfl | hb
  · exact .inl (.inl hb)
  · exact absurd rfl hne
  · exact .inr hb

end

section

variable {l : List Flusher} {i : ℕ} {f : Flusher}

/-- In a list of goroutines with distinct ids, the others than the `i`-th have other ids. -/
theorem segId_ne_of_mem (h : l[i]? = some f) (hl : l.Pairwise fun g g' => g.segId ≠ g'.segId)
    {g : Flusher} (hg : g ∈ l.take i ∨ g ∈ l.drop (i + 1)) : g.segId ≠ f.segId := by
  rw [eq_take_cons_drop h, List.pairwise_append, List.pairwise_cons] at hl
  rcases hg with hg | hg
  · exact hl.2.2 g hg f (List.mem_cons_self _ _)
  · exact (hl.2.1.1 g hg).symm

/-- Replacing a goroutine by one with its id, or dropping it, keeps the ids distinct. -/
theorem distinct_setOrDrop (h : l[i]? = some f) (hl : l.Pairwise fun g g' => g.segId ≠ g'.segId)
    {x : Option Flusher} (hx : ∀ g ∈ x.toList, g.segId = f.segId) :
    (setOrDrop l i x).Pairwise fun g g' => g.segId ≠ g'.segId := by
  cases x with
  | none =>
    refine hl.sublist ?_
    simpa [setOrDrop, ← List.eraseIdx_eq_take_drop_succ] using List.eraseIdx_sublist l i
  | some g =>
    have hmap : (setOrDrop l i (some g)).map Flusher.segId = l.map Flusher.segId := by
      conv_rhs => rw [eq_take_cons_drop h]
      simp [setOrDrop, hx g (List.mem_singleton_self _)]
    exact List.pairwise_map.mp (hmap ▸ List.pairwise_map.mpr hl)

end

/-! ## What holds of each goroutine -/

/-- A batch a flush returns: locations in its segment, none empty. -/
def Batch (es : List ExtentLocation) (seg : SegmentId) : Prop :=
  ∀ e ∈ es, e.segment = seg ∧ 0 < e.extent.blocks

/-- What holds of a goroutine at its stage: before its batch is installed, its segment is not
installed, registered only from `Create` on, and stored from `Flush` on; in the cleanup loop, every
segment left is installed and holds no entry of the map. -/
def Flusher.Ok (d : Disk) (f : Flusher) : Prop :=
  match f.stage with
  | .flush => f.oc.RecordsOk ∧ d.s.installed f.segId = false ∧ f.segId ∉ d.s.segments
  | .create es stats => Batch es f.segId ∧ stats = {} ∧ d.s.installed f.segId = false ∧
      f.segId ∉ d.s.segments ∧ (d.objects f.segId).isSome
  | .update es => Batch es f.segId ∧ d.s.installed f.segId = false ∧ f.segId ∈ d.s.segments ∧
      (d.objects f.segId).isSome
  | .clear => True
  | .findDeleted => True
  | .remove segs => ∀ i ∈ segs, d.s.installed i = true ∧
      ∀ l loc, d.lba2pba.Maps l loc → loc.segment ≠ i

/-- The registry's part of the disk's invariant: the map well formed and accounted for, and every
location it uses with bytes in a stored segment. -/
def GcInv (d : Disk) : Prop :=
  d.lba2pba.Wf ∧ d.lba2pba.Accounts d.s ∧
    ∀ l loc, d.lba2pba.Maps l loc → loc.size ≠ 0 → (d.objects loc.segment).isSome

section

variable {d d' : Disk} {g : Flusher}

/-- A goroutine's condition survives a change of the disk that keeps, for a goroutine not yet
installed, its segment's installation, registration and object, and that installs no segment
away nor adds an entry in an installed one. -/
theorem Flusher.Ok.mono (h : g.Ok d)
    (hinst : d.s.installed g.segId = false → d'.s.installed g.segId = false)
    (hinst' : ∀ i, d.s.installed i = true → d'.s.installed i = true)
    (hseg : d.s.installed g.segId = false → (g.segId ∈ d'.s.segments ↔ g.segId ∈ d.s.segments))
    (hobj : d.s.installed g.segId = false → (d.objects g.segId).isSome →
      (d'.objects g.segId).isSome)
    (hmaps : ∀ i, d.s.installed i = true → (∀ l loc, d.lba2pba.Maps l loc → loc.segment ≠ i) →
      ∀ l loc, d'.lba2pba.Maps l loc → loc.segment ≠ i) :
    g.Ok d' := by
  obtain ⟨oc, segId, stage⟩ := g
  cases stage with
  | flush =>
    obtain ⟨hr, hi, hs⟩ := h
    exact ⟨hr, hinst hi, fun h' => hs ((hseg hi).mp h')⟩
  | create es stats =>
    obtain ⟨hb, hst, hi, hs, ho⟩ := h
    exact ⟨hb, hst, hinst hi, fun h' => hs ((hseg hi).mp h'), hobj hi ho⟩
  | update es =>
    obtain ⟨hb, hi, hs, ho⟩ := h
    exact ⟨hb, hinst hi, (hseg hi).mpr hs, hobj hi ho⟩
  | clear => trivial
  | findDeleted => trivial
  | remove segs => exact fun i hi => ⟨hinst' i (h i hi).1, hmaps i (h i hi).1 (h i hi).2⟩

end

/-- `Flush`'s step, when it succeeds: the creator's segment uploaded under the goroutine's id, the
index appended to, and the goroutine on to `Create` with the creator's locations. -/
theorem Flusher.step_flush {d d' : Disk} {f : Flusher} {f' : Option Flusher}
    (hst : f.stage = .flush) (hs : f.step d = some (d', f')) :
    ∃ idx, appendToObjects d.index f.segId = some idx ∧ d' = { d with
      objects := fun s => if s = f.segId then some f.oc.segmentBytes else d.objects s
      index := some idx } ∧ f' = some { f with stage := .create (f.oc.locations f.segId) {} } := by
  simp only [Flusher.step, hst] at hs
  obtain ⟨⟨d₁, es, stats⟩, hup, hr⟩ := Option.map_eq_some'.mp hs
  obtain ⟨idx, hidx, hup⟩ := Option.map_eq_some'.mp hup
  simp only [Prod.mk.injEq] at hup hr
  obtain ⟨rfl, rfl, rfl⟩ := hup
  obtain ⟨rfl, rfl⟩ := hr
  exact ⟨idx, hidx, rfl, rfl⟩

/-- `Create`'s step: the segment registered, and the goroutine on to `UpdateBatch`. -/
theorem Flusher.step_create {d d' : Disk} {f : Flusher} {f' : Option Flusher}
    {es : List ExtentLocation} {stats : SegmentStats} (hst : f.stage = .create es stats)
    (hs : f.step d = some (d', f')) :
    d' = d.create f.segId stats ∧ f' = some { f with stage := .update es } := by
  simp only [Flusher.step, hst, Option.some.injEq, Prod.mk.injEq] at hs
  exact ⟨hs.1.symm, hs.2.symm⟩

/-- `UpdateBatch`'s step: the locations installed, and the goroutine on to `Clear`. -/
theorem Flusher.step_update {d d' : Disk} {f : Flusher} {f' : Option Flusher}
    {es : List ExtentLocation} (hst : f.stage = .update es) (hs : f.step d = some (d', f')) :
    d' = d.install es f.segId ∧ f' = some { f with stage := .clear } := by
  simp only [Flusher.step, hst, Option.some.injEq, Prod.mk.injEq] at hs
  exact ⟨hs.1.symm, hs.2.symm⟩

/-- `Clear`'s step: the previous cache emptied, and the goroutine on to `FindDeleted`. -/
theorem Flusher.step_clear {d d' : Disk} {f : Flusher} {f' : Option Flusher}
    (hst : f.stage = .clear) (hs : f.step d = some (d', f')) :
    d' = d.clearPrev ∧ f' = some { f with stage := .findDeleted } := by
  simp only [Flusher.step, hst, Option.some.injEq, Prod.mk.injEq] at hs
  exact ⟨hs.1.symm, hs.2.symm⟩

/-- `FindDeleted`'s step: the disk as it was, and the cleanup loop over the dead segments. -/
theorem Flusher.step_findDeleted {d d' : Disk} {f : Flusher} {f' : Option Flusher}
    (hst : f.stage = .findDeleted) (hs : f.step d = some (d', f')) :
    d' = d ∧ f' = some { f with stage := .remove d.s.findDeleted } := by
  simp only [Flusher.step, hst, Option.some.injEq, Prod.mk.injEq] at hs
  exact ⟨hs.1.symm, hs.2.symm⟩

/-- The cleanup loop's step: with no segment left, or at a failed `RemoveSegmentFromVolume`, the
goroutine returns; else the segment is removed and the loop goes on. -/
theorem Flusher.step_remove {d d' : Disk} {f : Flusher} {f' : Option Flusher}
    {segs : List SegmentId} (hst : f.stage = .remove segs) (hs : f.step d = some (d', f')) :
    d' = d ∧ f' = none ∨ ∃ i is idx, segs = i :: is ∧ removeSegmentFromVolume d.index i = some idx ∧
      d' = removeSegmentIfPossible { d with index := some idx } i ∧
      f' = some { f with stage := .remove is } := by
  cases segs with
  | nil =>
    simp only [Flusher.step, hst, Option.some.injEq, Prod.mk.injEq] at hs
    exact .inl ⟨hs.1.symm, hs.2.symm⟩
  | cons i is =>
    simp only [Flusher.step, hst] at hs
    cases hr : removeSegmentFromVolume d.index i with
    | none =>
      simp only [hr, Option.some.injEq, Prod.mk.injEq] at hs
      exact .inl ⟨hs.1.symm, hs.2.symm⟩
    | some idx =>
      simp only [hr, Option.some.injEq, Prod.mk.injEq] at hs
      exact .inr ⟨i, is, idx, rfl, hr, hs.1.symm, hs.2.symm⟩

/-- A goroutine's step never goes back to `Flush`. -/
theorem Flusher.step_stage_ne_flush {d d' : Disk} {f : Flusher} {f' : Option Flusher}
    (hs : f.step d = some (d', f')) : ∀ g ∈ f'.toList, g.stage ≠ .flush := by
  intro g hg
  cases hst : f.stage with
  | flush => obtain ⟨_, -, -, rfl⟩ := Flusher.step_flush hst hs; cases List.mem_singleton.mp hg; nofun
  | create es stats =>
    obtain ⟨-, rfl⟩ := Flusher.step_create hst hs; cases List.mem_singleton.mp hg; nofun
  | update es => obtain ⟨-, rfl⟩ := Flusher.step_update hst hs; cases List.mem_singleton.mp hg; nofun
  | clear => obtain ⟨-, rfl⟩ := Flusher.step_clear hst hs; cases List.mem_singleton.mp hg; nofun
  | findDeleted =>
    obtain ⟨-, rfl⟩ := Flusher.step_findDeleted hst hs; cases List.mem_singleton.mp hg; nofun
  | remove segs =>
    rcases Flusher.step_remove hst hs with ⟨-, rfl⟩ | ⟨_, _, _, -, -, -, rfl⟩
    · cases hg
    · cases List.mem_singleton.mp hg; nofun

/-- A goroutine is stuck exactly in `Flush` under a done `ctx`. -/
theorem Flusher.stuck_iff {c : List SegmentId} {f : Flusher} :
    f.stuck c = true ↔ f.stage = .flush ∧ f.segId ∈ c := by
  unfold Flusher.stuck
  split <;> simp_all

/-- A goroutine past `Flush`, or in it under a `ctx` not done, is not stuck. -/
theorem Flusher.stuck_eq_false {c : List SegmentId} {f : Flusher}
    (h : f.stage = .flush → f.segId ∉ c) : f.stuck c = false :=
  Bool.eq_false_iff.mpr fun ht => (Flusher.stuck_iff.mp ht).elim h

/-- What one step of goroutine `f` does, from `d` to `d'`, with the goroutine `f'` then. -/
structure StepSpec (d d' : Disk) (f : Flusher) (f' : Option Flusher) : Prop where
  gc : GcInv d'
  curOC : d'.curOC = d.curOC
  curSeq : d'.curSeq = d.curSeq
  /-- The goroutine, if still there, keeps its id and its condition. -/
  self : ∀ g : Flusher, g ∈ f'.toList → g.Ok d' ∧ g.segId = f.segId
  /-- The other goroutines keep theirs. -/
  others : ∀ g : Flusher, g.segId ≠ f.segId → g.Ok d → g.Ok d'
  installed : ∀ s, d'.s.installed s = true → s = f.segId ∨ d.s.installed s = true
  segments : ∀ s ∈ d'.s.segments, s = f.segId ∨ s ∈ d.s.segments

section

variable {d d' : Disk} {f : Flusher} {f' : Option Flusher}

/-- `Flush`, on success: the segment uploaded, its batch the creator's records. -/
theorem StepSpec.flush (hg : GcInv d) (hf : f.Ok d) (hst : f.stage = .flush)
    (hs : f.step d = some (d', f')) : StepSpec d d' f f' := by
  rw [Flusher.Ok, hst] at hf
  obtain ⟨hrec, hi, hns⟩ := hf
  obtain ⟨idx, -, rfl, rfl⟩ := Flusher.step_flush hst hs
  have hgrow : ∀ s, (d.objects s).isSome → ((if s = f.segId then some f.oc.segmentBytes
      else d.objects s).isSome) := fun s hs => by split_ifs <;> simp [hs]
  refine ⟨⟨hg.1, hg.2.1, fun l loc hl hsz => hgrow _ (hg.2.2 l loc hl hsz)⟩, rfl, rfl,
    fun g hg' => ?_, fun g _ hok => hok.mono id (fun _ => id) (fun _ => Iff.rfl)
      (fun _ => hgrow _) (fun _ _ => id), fun s hs => .inr hs, fun s hs => .inr hs⟩
  obtain rfl := List.mem_singleton.mp hg'
  refine ⟨⟨fun e he => ?_, rfl, hi, hns, by simp⟩, rfl⟩
  obtain ⟨r, hr, rfl⟩ := List.mem_map.mp he
  exact ⟨rfl, (hrec r hr).1⟩

/-- `Create`: the segment registered, with no live block. -/
theorem StepSpec.create (hg : GcInv d) (hf : f.Ok d) {es : List ExtentLocation}
    {stats : SegmentStats} (hst : f.stage = .create es stats) (hs : f.step d = some (d', f')) :
    StepSpec d d' f f' := by
  rw [Flusher.Ok, hst] at hf
  obtain ⟨hb, rfl, hi, hns, ho⟩ := hf
  obtain ⟨rfl, rfl⟩ := Flusher.step_create hst hs
  have hfresh : ∀ x ∈ d.lba2pba.entries, x.segment ≠ f.segId := fun x hx hxs =>
    hns (hxs ▸ hg.2.1.registered x hx)
  refine ⟨⟨hg.1, hg.2.1.create hfresh, hg.2.2⟩, rfl, rfl, fun g hg' => ?_,
    fun g hne hok => hok.mono id (fun _ => id) (fun _ => ?_) (fun _ => id) (fun _ _ => id),
    fun s hs => .inr hs, fun s hs => ?_⟩
  · obtain rfl := List.mem_singleton.mp hg'
    exact ⟨⟨hb, hi, List.mem_append_right _ (List.mem_singleton_self _), ho⟩, rfl⟩
  · simp [Disk.create, Segments.create, hne]
  · rcases List.mem_append.mp hs with hs | hs
    · exact .inr hs
    · exact .inl (List.mem_singleton.mp hs)

/-- `UpdateBatch`: the batch installed over the map, its segment installed. -/
theorem StepSpec.update (hg : GcInv d) (hf : f.Ok d) {es : List ExtentLocation}
    (hst : f.stage = .update es) (hs : f.step d = some (d', f')) : StepSpec d d' f f' := by
  rw [Flusher.Ok, hst] at hf
  obtain ⟨hb, hi, hreg, ho⟩ := hf
  obtain ⟨rfl, rfl⟩ := Flusher.step_update hst hs
  obtain ⟨hwf, hacc, hmaps⟩ := ExtentMap.updateBatch_spec es hb hg.1 hg.2.1 hreg
  have hinst := ExtentMap.installed_updateBatch d.lba2pba es f.segId d.s
  -- A location the new map uses is one of the batch, in the segment, or one the old map used.
  have hnew : ∀ l loc, (d.install es f.segId).lba2pba.Maps l loc →
      loc.segment = f.segId ∨ d.lba2pba.Maps l loc := fun l loc hl =>
    ((hmaps l loc).mp hl).imp (fun h => (hb loc (ExtentMap.latestIn_mem h)).1) And.right
  refine ⟨⟨hwf, hacc, fun l loc hl hsz => ?_⟩, rfl, rfl, fun g hg' => ?_,
    fun g hne hok => hok.mono (fun h' => ?_) (fun s h' => ?_) (fun _ => ?_) (fun _ => id)
      (fun i hii hno l loc hl => ?_),
    fun s hs => ?_, fun s hs => .inr ?_⟩
  · rcases hnew l loc hl with h | h
    · exact h ▸ ho
    · exact hg.2.2 l loc h hsz
  · obtain rfl := List.mem_singleton.mp hg'
    exact ⟨trivial, rfl⟩
  · simp [Disk.install, hinst, hne, h']
  · simp [Disk.install, hinst, h']
  · rw [show (d.install es f.segId).s.segments = d.s.segments from
      ExtentMap.segments_updateBatch _ _ _ _]
  · rcases hnew l loc hl with h | h
    · exact h ▸ fun he => absurd (he ▸ hii) (by simp [hi])
    · exact hno l loc h
  · simp only [Disk.install, hinst, Bool.or_eq_true, decide_eq_true_eq] at hs
    exact hs
  · rwa [show (d.install es f.segId).s.segments = d.s.segments from
      ExtentMap.segments_updateBatch _ _ _ _] at hs

/-- A step that changes neither the registry, the objects nor the map. -/
theorem StepSpec.frame (hg : GcInv d) (hs : d'.s = d.s) (ho : d'.objects = d.objects)
    (hm : d'.lba2pba = d.lba2pba) (hcur : d'.curOC = d.curOC) (hseq : d'.curSeq = d.curSeq)
    (hself : ∀ g : Flusher, g ∈ f'.toList → g.Ok d' ∧ g.segId = f.segId) : StepSpec d d' f f' := by
  have hok : ∀ g : Flusher, g.Ok d → g.Ok d' := fun g h => h.mono (by rw [hs]; exact id)
    (by rw [hs]; exact fun _ => id) (by rw [hs]; exact fun _ => Iff.rfl) (by rw [ho]; exact fun _ => id)
    (by rw [hm]; exact fun _ _ => id)
  exact ⟨by rw [GcInv, hs, ho, hm]; exact hg, hcur, hseq, hself, fun g _ => hok g,
    fun s h => .inr (hs ▸ h), fun s h => .inr (hs ▸ h)⟩

/-- One turn of the cleanup loop: a segment that holds no entry removed. -/
theorem StepSpec.remove (hg : GcInv d) (hf : f.Ok d) {i : SegmentId} {is : List SegmentId}
    (hst : f.stage = .remove (i :: is)) (hs : f.step d = some (d', f')) : StepSpec d d' f f' := by
  rw [Flusher.Ok, hst] at hf
  obtain ⟨hii, hno⟩ := hf i (List.mem_cons_self _ _)
  rcases Flusher.step_remove hst hs with ⟨rfl, rfl⟩ | ⟨_, _, idx, ⟨⟩, -, rfl, rfl⟩
  · exact StepSpec.frame hg rfl rfl rfl rfl rfl fun g hg' => nomatch hg'
  · have hent : ∀ x ∈ d.lba2pba.entries, x.segment ≠ i := fun x hx =>
      hno _ _ (ExtentMap.maps_of_mem hx (hg.1.pos x hx))
    -- A segment not installed is not the one removed.
    have hne : ∀ s, d.s.installed s = false → s ≠ i := fun s hs he => by simp [he, hii] at hs
    refine ⟨⟨hg.1, hg.2.1.purge hent, fun l loc hl hsz => ?_⟩, rfl, rfl, fun g hg' => ?_,
      fun g _ hok => hok.mono id (fun _ => id) (fun hgi => ?_) (fun hgi => ?_) (fun _ _ => id),
      fun s hs => .inr hs, fun s hs => .inr (List.mem_filter.mp hs).1⟩
    · have : loc.segment ≠ i := hno l loc hl
      simpa [removeSegmentIfPossible, this] using hg.2.2 l loc hl hsz
    · obtain rfl := List.mem_singleton.mp hg'
      exact ⟨fun j hj => hf j (List.mem_cons_of_mem _ hj), rfl⟩
    · simp [removeSegmentIfPossible, Segments.purge, hne _ hgi]
    · simp [removeSegmentIfPossible, hne _ hgi]

/-- Every step of a goroutine from its condition and the registry's invariant does what
`StepSpec` says. -/
theorem Flusher.step_spec (hg : GcInv d) (hf : f.Ok d) (hs : f.step d = some (d', f')) :
    StepSpec d d' f f' := by
  cases hst : f.stage with
  | flush => exact .flush hg hf hst hs
  | create es stats => exact .create hg hf hst hs
  | update es => exact .update hg hf hst hs
  | clear =>
    obtain ⟨rfl, rfl⟩ := Flusher.step_clear hst hs
    exact .frame hg rfl rfl rfl rfl rfl fun g hg' => ⟨by rw [List.mem_singleton.mp hg']; trivial,
      by rw [List.mem_singleton.mp hg']⟩
  | findDeleted =>
    obtain ⟨rfl, rfl⟩ := Flusher.step_findDeleted hst hs
    refine .frame hg rfl rfl rfl rfl rfl fun g hg' => ?_
    obtain rfl := List.mem_singleton.mp hg'
    refine ⟨fun i hi => ⟨?_, ?_⟩, rfl⟩
    · obtain ⟨-, hdead⟩ := List.mem_filter.mp hi
      simp only [Segments.dead, Bool.and_eq_true] at hdead
      exact hdead.1
    · rintro l _ ⟨x, hx, -, rfl⟩
      exact ExtentMap.findDeleted_unmapped hg.2.1 hg.1 hi x hx
  | remove segs =>
    cases segs with
    | nil =>
      obtain ⟨rfl, rfl⟩ | ⟨_, _, _, ⟨⟩, -⟩ := Flusher.step_remove hst hs
      exact .frame hg rfl rfl rfl rfl rfl fun g hg' => nomatch hg'
    | cons i is => exact .remove hg hf hst hs

end

/-- A reader's step changes only the caches. -/
theorem Reader.step_caches (r : Reader) (lz : Lz4) (d : Disk) :
    ∃ c o, (r.step lz d).1 = { d with extentCache := c, openSegments := o } := by
  unfold Reader.step
  split
  · exact ⟨_, _, rfl⟩
  · split
    · exact readPartialExtent_caches ‹_›
    · exact ⟨_, _, rfl⟩

/-! ## What each action does -/

namespace Sys

section

variable {lz : Lz4} {env : WriteEnv} {S S' : Sys}

/-- A write goes to the current creator, with the writer between operations. -/
theorem step_write {data : RangeData} (hs : S.step lz env (.write data) = some S') :
    ∃ oc, S.held = none ∧ S.disk.curOC = some oc ∧ S' = { S with
      disk := { S.disk with curOC := some (oc.writeExtent lz data) }
      acked := writeRange S.acked data } := by
  simp only [Sys.step] at hs
  split at hs
  · rename_i oc hheld hcur
    exact ⟨oc, hheld, hcur, (Option.some.inj hs).symm⟩
  · cases hs

/-- `ZeroBlocks` goes to the current creator, with the writer between operations. -/
theorem step_zero {rng : Extent} (hs : S.step lz env (.zero rng) = some S') :
    ∃ oc, S.held = none ∧ S.disk.curOC = some oc ∧ S' = { S with
      disk := { S.disk with curOC := some (oc.zeroBlocks rng) }
      acked := zeroRange S.acked rng } := by
  simp only [Sys.step] at hs
  split at hs
  · rename_i oc hheld hcur
    exact ⟨oc, hheld, hcur, (Option.some.inj hs).symm⟩
  · cases hs

/-- The writer's replacing of the creator, by what `newSegmentCreator` does: on success the writer
holds the creator and id it took, under a new empty creator and the new id; on failure `d.curOC`
is `nil`, and `d.curSeq` has moved if an id was drawn. -/
theorem step_replace (hs : S.step lz env .replace = some S') :
    S.held = none ∧ match env.nextSeq S.disk.curSeq with
      | none => S' = { S with disk := { S.disk with curOC := none } }
      | some seq => if env.createOk seq
        then S' = { S with
          disk := { S.disk with curOC := some {}, curSeq := seq }
          held := some (S.disk.curOC, S.disk.curSeq) }
        else S' = { S with disk := { S.disk with curOC := none, curSeq := seq } } := by
  simp only [Sys.step] at hs
  split at hs
  · cases hs
  · refine ⟨‹_›, ?_⟩
    rw [replaceCreator_eq] at hs
    cases hseq : env.nextSeq S.disk.curSeq with
    | none =>
      simp only [hseq] at hs
      exact (Option.some.inj hs).symm
    | some seq =>
      simp only [hseq] at hs
      dsimp only
      split_ifs at hs ⊢ <;> exact (Option.some.inj hs).symm

/-- `SetWhenClear` puts the held creator in the empty previous cache and starts its goroutine. -/
theorem step_setWhenClear (hs : S.step lz env .setWhenClear = some S') :
    ∃ oc segId, S.held = some (some oc, segId) ∧ S.disk.prevCache = none ∧ S' = { S with
      disk := { S.disk with prevCache := some oc }
      held := none
      flushers := S.flushers ++ [⟨oc, segId, .flush⟩] } := by
  simp only [Sys.step] at hs
  split at hs
  · rename_i oc segId hheld
    obtain ⟨d', hd, rfl⟩ := Option.map_eq_some'.mp hs
    unfold Disk.setWhenClear at hd
    split at hd
    · cases hd
      exact ⟨oc, segId, hheld, ‹_›, rfl⟩
    · cases hd
  · cases hs

/-- A goroutine's step. -/
theorem step_flushStep {i : ℕ} (hs : S.step lz env (.flushStep i) = some S') :
    ∃ f d' f', S.flushers[i]? = some f ∧ f.step S.disk = some (d', f') ∧
      S' = { S with disk := d', flushers := setOrDrop S.flushers i f' } := by
  simp only [Sys.step] at hs
  split at hs
  · cases hs
  · split at hs
    · cases hs
    · obtain ⟨⟨d', f'⟩, hf, rfl⟩ := Option.map_eq_some'.mp hs
      exact ⟨_, d', f', ‹_›, hf, rfl⟩

/-- A goroutine in `Flush` under a done `ctx` takes no step. -/
theorem step_flushStep_stuck {i : ℕ} {f : Flusher} (hi : S.flushers[i]? = some f)
    (hf : f.stuck S.cancelled = true) : S.step lz env (.flushStep i) = none := by
  simp [Sys.step, hi, hf]

/-- The start of a read changes only the readers. -/
theorem step_readStart {rng : Extent} (hs : S.step lz env (.readStart rng) = some S') :
    ∃ rs, S' = { S with readers := rs } := by
  simp only [Sys.step] at hs
  split at hs <;> cases hs
  · exact ⟨_, rfl⟩
  · exact ⟨S.readers, rfl⟩

/-- A reader's step changes only the caches and the readers. -/
theorem step_readStep {i : ℕ} (hs : S.step lz env (.readStep i) = some S') :
    ∃ c o rs, S' = { S with
      disk := { S.disk with extentCache := c, openSegments := o }
      readers := rs } := by
  simp only [Sys.step] at hs
  split at hs
  · cases hs
  · rename_i r _
    cases hs
    obtain ⟨c, o, hd⟩ := r.step_caches lz S.disk
    exact ⟨c, o, _, by rw [hd]⟩

/-- A `ctx` done changes only the list of done ones. -/
theorem step_cancel {seg : SegmentId} (hs : S.step lz env (.cancel seg) = some S') :
    S' = { S with cancelled := seg :: S.cancelled } :=
  (Option.some.inj hs).symm

/-- The writer's and the goroutines' actions leave the readers as they are. -/
theorem step_readers {a : Action} (ha : a.reads = false) (hs : S.step lz env a = some S') :
    S'.readers = S.readers := by
  cases a with
  | write => obtain ⟨_, -, -, rfl⟩ := step_write hs; rfl
  | zero => obtain ⟨_, -, -, rfl⟩ := step_zero hs; rfl
  | replace =>
    obtain ⟨-, h⟩ := step_replace hs
    split at h
    · rw [h]
    · split_ifs at h <;> rw [h]
  | setWhenClear => obtain ⟨_, _, -, -, rfl⟩ := step_setWhenClear hs; rfl
  | flushStep => obtain ⟨_, _, _, -, -, rfl⟩ := step_flushStep hs; rfl
  | cancel => obtain rfl := step_cancel hs; rfl
  | readStart | readStep => cases ha

/-- An interleaving with no reader's action leaves the readers as they are. -/
theorem run_readers {acts : List Action} (hacts : ∀ a ∈ acts, a.reads = false)
    (hrun : Sys.run lz env S acts = some S') : S'.readers = S.readers := by
  induction acts generalizing S with
  | nil => cases hrun; rfl
  | cons a as ih =>
    obtain ⟨S₁, h₁, hrest⟩ := Option.bind_eq_some.mp hrun
    exact (ih (fun b hb => hacts b (List.mem_cons_of_mem a hb)) hrest).trans
      (step_readers (hacts a (List.mem_cons_self a as)) h₁)

/-- The interleavings one after the other. -/
theorem run_append (S : Sys) (as bs : List Action) :
    Sys.run lz env S (as ++ bs) = (Sys.run lz env S as).bind fun S' => Sys.run lz env S' bs := by
  induction as generalizing S with
  | nil => rfl
  | cons a as ih =>
    simp only [List.cons_append, Sys.run]
    cases S.step lz env a with
    | none => rfl
    | some S₁ => exact ih S₁

end

/-! ## The invariant of every interleaving -/

/-- What holds in every state an interleaving reaches. -/
structure Inv (S : Sys) : Prop where
  gc : GcInv S.disk
  flushers : ∀ f ∈ S.flushers, f.Ok S.disk
  /-- No two goroutines flush under one id. -/
  distinct : S.flushers.Pairwise fun f g => f.segId ≠ g.segId
  /-- Every id in use is below the one the writer hands out next. -/
  fresh : ∀ f ∈ S.flushers, f.segId < S.next
  installedFresh : ∀ s, S.disk.s.installed s = true → s < S.next
  regFresh : ∀ s ∈ S.disk.s.segments, s < S.next
  /-- The held id is below `curSeq`, and the creators the writer wrote are as writes make them. -/
  held : ∀ oc h, S.held = some (oc, h) → h < S.disk.curSeq ∧ ∀ c, oc = some c → c.RecordsOk
  cur : ∀ oc, S.disk.curOC = some oc → oc.RecordsOk

/-- A new volume. -/
theorem inv_init (s0 : SegmentId) : (init s0).Inv := by
  refine ⟨⟨⟨.nil, ?_, ?_⟩, ⟨?_, ?_⟩, ?_⟩, ?_, .nil, ?_, ?_, ?_, ?_, ?_⟩ <;>
    simp [init, Disk.init, ExtentMap.Maps, next]
  exact fun _ h => absurd h (List.not_mem_nil _)

section

variable {lz : Lz4} {env : WriteEnv} {S S' : Sys}

/-- A goroutine's step keeps the invariant. -/
theorem Inv.flushStep (h : S.Inv) {i : ℕ} {f : Flusher} (hi : S.flushers[i]? = some f)
    {d' : Disk} {f' : Option Flusher} (hs : f.step S.disk = some (d', f')) :
    Inv { S with disk := d', flushers := setOrDrop S.flushers i f' } := by
  have hf : f ∈ S.flushers := List.getElem?_mem hi
  have hspec := Flusher.step_spec h.gc (h.flushers f hf) hs
  have hnext : Sys.next { S with disk := d', flushers := setOrDrop S.flushers i f' } = S.next := by
    simp only [next, hspec.curSeq]
  -- The goroutines now: the one that stepped, or one of the others.
  have hmem : ∀ g ∈ setOrDrop S.flushers i f', (g.Ok d' ∧ g.segId = f.segId) ∨
      (g ∈ S.flushers ∧ g.segId ≠ f.segId) := fun g hg =>
    (mem_setOrDrop hg).imp (hspec.self g) fun hg' =>
      ⟨hg'.elim (List.mem_of_mem_take ·) (List.mem_of_mem_drop ·), segId_ne_of_mem hi h.distinct hg'⟩
  refine ⟨hspec.gc, fun g hg => ?_, distinct_setOrDrop hi h.distinct fun g hg => (hspec.self g hg).2,
    fun g hg => ?_, fun s hs => ?_, fun s hs => ?_, fun oc hh hheld => ?_, fun oc hcur => ?_⟩
  · rcases hmem g hg with hg | ⟨hg, hne⟩
    · exact hg.1
    · exact hspec.others g hne (h.flushers g hg)
  · rw [hnext]
    rcases hmem g hg with hg | ⟨hg, -⟩
    · exact hg.2 ▸ h.fresh f hf
    · exact h.fresh g hg
  · rw [hnext]
    rcases hspec.installed s hs with rfl | hs
    · exact h.fresh _ hf
    · exact h.installedFresh s hs
  · rw [hnext]
    rcases hspec.segments s hs with rfl | hs
    · exact h.fresh _ hf
    · exact h.regFresh s hs
  · rw [hspec.curSeq]; exact h.held oc hh hheld
  · exact h.cur oc (hspec.curOC ▸ hcur)

/-- The writer's replacing of the creator keeps the invariant: the id it takes is the next one,
and `curSeq` moves above it. -/
theorem Inv.replace (h : S.Inv) (henv : ∀ s', env.nextSeq S.disk.curSeq = some s' → S.disk.curSeq < s')
    (hs : S.step lz env .replace = some S') : S'.Inv := by
  obtain ⟨hheld, hS⟩ := step_replace hs
  have hnext : S.next = S.disk.curSeq := by simp [next, hheld]
  cases hseq : env.nextSeq S.disk.curSeq with
  | none =>
    rw [hseq] at hS
    subst hS
    exact { h with cur := fun _ hc => by cases hc }
  | some seq =>
    have hlt := henv _ hseq
    rw [hseq] at hS
    dsimp only at hS
    split_ifs at hS
    · subst hS
      exact { h with
        fresh := by simpa [next, hheld] using h.fresh
        installedFresh := by simpa [next, hheld] using h.installedFresh
        regFresh := by simpa [next, hheld] using h.regFresh
        held := fun oc hh hheld' => by
          cases hheld'
          exact ⟨hlt, fun c hc => h.cur c hc⟩
        cur := fun c hc => by
          cases hc
          exact fun _ h => absurd h (List.not_mem_nil _) }
    · subst hS
      exact { h with
        fresh := fun f hf => by simp only [next, hheld]; exact (hnext ▸ h.fresh f hf).trans hlt
        installedFresh := fun s hs => by
          simp only [next, hheld]; exact (hnext ▸ h.installedFresh s hs).trans hlt
        regFresh := fun s hs => by simp only [next, hheld]; exact (hnext ▸ h.regFresh s hs).trans hlt
        held := fun _ _ hh => by simp [hheld] at hh
        cur := fun _ hc => by cases hc }

/-- `SetWhenClear` and the start of the goroutine keep the invariant: the goroutine's id is the
held one, above every id in use. -/
theorem Inv.setWhenClear (h : S.Inv) (hs : S.step lz env .setWhenClear = some S') : S'.Inv := by
  obtain ⟨oc, segId, hheld, -, rfl⟩ := step_setWhenClear hs
  obtain ⟨hlt, hrec⟩ := h.held _ _ hheld
  have hnext : S.next = segId := by simp [next, hheld]
  refine ⟨h.gc, fun f hf => ?_, ?_, fun f hf => ?_, fun s hs => (hnext ▸ h.installedFresh s hs).trans hlt,
    fun s hs => (hnext ▸ h.regFresh s hs).trans hlt, fun _ _ hh => (by cases hh), h.cur⟩
  · rcases List.mem_append.mp hf with hf | hf
    · exact h.flushers f hf
    · obtain rfl := List.mem_singleton.mp hf
      refine ⟨hrec oc rfl, ?_, fun hm => absurd (hnext ▸ h.regFresh _ hm) (lt_irrefl _)⟩
      cases hinst : S.disk.s.installed segId
      · rfl
      · exact absurd (hnext ▸ h.installedFresh _ hinst) (lt_irrefl _)
  · refine List.pairwise_append.mpr ⟨h.distinct, List.pairwise_singleton _ _, fun f hf g hg => ?_⟩
    obtain rfl := List.mem_singleton.mp hg
    exact (hnext ▸ h.fresh f hf).ne
  · rcases List.mem_append.mp hf with hf | hf
    · exact (hnext ▸ h.fresh f hf).trans hlt
    · obtain rfl := List.mem_singleton.mp hf
      exact hlt

/-- Every action keeps the invariant, with the next id drawn above `curSeq`. -/
theorem Inv.step (h : S.Inv) (henv : ∀ s', env.nextSeq S.disk.curSeq = some s' → S.disk.curSeq < s')
    {a : Action} (ha : a.Valid) (hs : S.step lz env a = some S') : S'.Inv := by
  cases a with
  | write data =>
    obtain ⟨oc, -, hcur, rfl⟩ := step_write hs
    exact { h with cur := fun c hc => by cases hc; exact (h.cur oc hcur).writeExtent ha }
  | zero rng =>
    obtain ⟨oc, -, hcur, rfl⟩ := step_zero hs
    exact { h with cur := fun c hc => by cases hc; exact (h.cur oc hcur).zeroBlocks ha }
  | replace => exact h.replace henv hs
  | setWhenClear => exact h.setWhenClear hs
  | flushStep i =>
    obtain ⟨f, d', f', hi, hf, rfl⟩ := step_flushStep hs
    exact h.flushStep hi hf
  | readStart rng =>
    obtain ⟨rs, rfl⟩ := step_readStart hs
    exact { h with }
  | readStep i =>
    obtain ⟨c, o, rs, rfl⟩ := step_readStep hs
    exact { h with }
  | cancel seg =>
    obtain rfl := step_cancel hs
    exact { h with }

/-- Every action but the writer's replacing keeps `curSeq`. -/
theorem Inv.curSeq_step (h : S.Inv) {a : Action} (ha : a ≠ .replace)
    (hs : S.step lz env a = some S') : S'.disk.curSeq = S.disk.curSeq := by
  cases a with
  | write data => obtain ⟨_, -, -, rfl⟩ := step_write hs; rfl
  | zero rng => obtain ⟨_, -, -, rfl⟩ := step_zero hs; rfl
  | replace => exact absurd rfl ha
  | setWhenClear => obtain ⟨_, _, -, -, rfl⟩ := step_setWhenClear hs; rfl
  | flushStep i =>
    obtain ⟨f, d', f', hi, hf, rfl⟩ := step_flushStep hs
    exact (Flusher.step_spec h.gc (h.flushers f (List.getElem?_mem hi)) hf).curSeq
  | readStart rng => obtain ⟨_, rfl⟩ := step_readStart hs; rfl
  | readStep i => obtain ⟨_, _, _, rfl⟩ := step_readStep hs; rfl
  | cancel seg => obtain rfl := step_cancel hs; rfl

/-- Every interleaving of valid actions keeps the invariant. -/
theorem Inv.run (h : S.Inv) (henv : ∀ s s', env.nextSeq s = some s' → s < s') {acts : List Action}
    (hacts : ∀ a ∈ acts, a.Valid) (hrun : Sys.run lz env S acts = some S') : S'.Inv := by
  induction acts generalizing S with
  | nil =>
    cases hrun
    exact h
  | cons a as ih =>
    rw [Sys.run, Option.bind_eq_some] at hrun
    obtain ⟨S₁, h₁, hrun⟩ := hrun
    exact ih (h.step (henv _) (hacts a (List.mem_cons_self _ _)) h₁)
      (fun b hb => hacts b (List.mem_cons_of_mem _ hb)) hrun

end

end Sys

/-! ## Safety, and the two races -/

/-- Over every interleaving of valid actions from a new volume, with ids drawn in increasing order,
every entry of the extent map with bytes is in a stored segment, and every segment a cleanup loop
has still to remove holds no entry: the cleanup never removes a segment the map uses. -/
theorem run_keeps_mapped_segments {lz : Lz4} {env : WriteEnv}
    (henv : ∀ s s', env.nextSeq s = some s' → s < s') {s0 : SegmentId} {acts : List Action}
    (hacts : ∀ a ∈ acts, a.Valid) {S : Sys} (hrun : Sys.run lz env (Sys.init s0) acts = some S) :
    (∀ x ∈ S.disk.lba2pba.entries, x.size ≠ 0 → (S.disk.objects x.segment).isSome) ∧
      ∀ f ∈ S.flushers, ∀ segs, f.stage = .remove segs → ∀ i ∈ segs,
        ∀ x ∈ S.disk.lba2pba.entries, x.segment ≠ i := by
  have h := (Sys.inv_init s0).run henv hacts hrun
  refine ⟨fun x hx hsz => h.gc.2.2 _ _ (ExtentMap.maps_of_mem hx (h.gc.1.pos x hx)) hsz,
    fun f hf segs hst i hi x hx => ?_⟩
  have hok := h.flushers f hf
  rw [Flusher.Ok, hst] at hok
  exact (hok i hi).2 _ _ (ExtentMap.maps_of_mem hx (h.gc.1.pos x hx))

/-- `countingEnv` draws ids in increasing order. -/
theorem countingEnv_increasing : ∀ s s', countingEnv.nextSeq s = some s' → s < s' := by
  intro s s' h
  simp only [countingEnv] at h
  split_ifs at h
  cases h
  exact Nat.lt_succ_self _

/-- A block of twos. -/
def twosBlock : Block := List.replicate BlockSize 2

/-- A race between a read and the cleanup: block 0 written and sealed, its goroutine run to its
end; a read of block 0 resolved, to segment 0; block 0 written again and sealed, and its goroutine
run through the removal of segment 0, now dead. -/
def gcRace : List Action :=
  [.write ⟨⟨0, 1⟩, onesBlock⟩, .replace, .setWhenClear] ++ List.replicate 6 (.flushStep 0) ++
    [.readStart ⟨0, 1⟩, .write ⟨⟨0, 1⟩, twosBlock⟩, .replace, .setWhenClear] ++
    List.replicate 6 (.flushStep 0)

/-- The race's actions are valid. -/
theorem gcRace_valid : ∀ a ∈ gcRace, a.Valid := by
  simp [gcRace, Action.Valid, RangeData.Wf, onesBlock, twosBlock]

/-- The race keeps the map's segments stored: the safety holds at its end. -/
theorem run_keeps_mapped_segments_in_gcRace :
    (∀ s s', countingEnv.nextSeq s = some s' → s < s') ∧ (∀ a ∈ gcRace, a.Valid) ∧
      ∃ S, Sys.run Lz4.never countingEnv (Sys.init 0) gcRace = some S ∧
        (∀ x ∈ S.disk.lba2pba.entries, x.size ≠ 0 → (S.disk.objects x.segment).isSome) ∧
        ∀ f ∈ S.flushers, ∀ segs, f.stage = .remove segs → ∀ i ∈ segs,
          ∀ x ∈ S.disk.lba2pba.entries, x.segment ≠ i := by
  obtain ⟨S, hrun⟩ : ∃ S, Sys.run Lz4.never countingEnv (Sys.init 0) gcRace = some S :=
    Option.isSome_iff_exists.mp (by rfl)
  exact ⟨countingEnv_increasing, gcRace_valid, S, hrun,
    run_keeps_mapped_segments countingEnv_increasing gcRace_valid hrun⟩

/-- Between replacing `d.curOC` and `SetWhenClear`, a block written and acknowledged before the
seal is in no layer that `ReadExtent` consults: the layered lookup, and a read, give zeros. -/
theorem replace_hides_acknowledged_write :
    ∃ S, Sys.run Lz4.never countingEnv (Sys.init 0) [.write ⟨⟨0, 1⟩, onesBlock⟩, .replace] = some S ∧
      S.acked 0 = onesBlock ∧ S.disk.view Lz4.never 0 = emptyBlock ∧
      ∀ io, S.disk.readExtent Lz4.never io ⟨0, 1⟩ = .ok (RangeData.new ⟨0, 1⟩, S.disk) :=
  ⟨_, rfl, by simp [writeRange, RangeData.block, bytesAt, onesBlock, Extent.mem_iff], rfl,
    fun _ => rfl⟩

end Disk

end Lsvd
