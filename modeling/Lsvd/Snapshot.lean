import Lsvd.Coherence
import Lsvd.Store

/-!
# A read returns the disk as it was when it started

A `ReadExtent` runs over many steps of an interleaving: its fill from the write caches with
`Resolve` as one step (`Action.readStart`), then one `readPartialExtent` per request
(`Action.readStep`), while the writer writes and seals, goroutines flush and install, and the
cleanup removes segments. What it returns is still one state's: the reader records the disk it
started on (`Reader.start`), the state before one of the interleaving's `readStart` actions over
its range, and at every block of its range it holds what `view` showed on that disk, or zeros
(`run_reads_snapshot`). Zeros stand only where a request has still to read, or where the segment
the block's entry was in has since been removed for good: a failed `ReadAt`, which
`readPartialExtent` does not report. A read never mixes in a write made after it started, nor
bytes of another segment. And a read run on its own, at any point of an interleaving, succeeds and
returns `view`, which, with the writer between operations, is every acknowledged write
(`run_readExtent_returns_acked`).

The proof has three layers. `Sys.Decodes`, kept by every step, says that every location with
bytes that the map uses, or that a goroutine's batch will install, is stored and decodes to as
many bytes as its full extent has: `Flush` stores the creator's records (`storedOk_locations`),
`UpdateBatch` installs only its batch, and the cleanup removes only installed segments that no
entry uses. With the invariants of `Lsvd.Concurrency`, `Lsvd.Store` and `Lsvd.Coherence` it makes
`Sys.Safe`, which gives the contract of the sequential read (`Safe.readContract`). `Keeps S₀ S`
says that a later state keeps the store of an earlier one: a segment stored at `S₀` holds the same
bytes or is gone for good (`Clean.objects_step`), and the extent cache holds its bytes
(`step_cache`). A request built at the read's start (`ReadRequest.Reads`) then reads, at any later
state that keeps the start's store, the bytes it would have read at the start, or nothing from a
segment gone for good (`ReadRequest.Reads.readPartialExtent`). So `Reader.Holds` is kept by the
reader's own steps, and by every other step since a segment once gone stays gone.
-/

namespace Lsvd

namespace Disk

/-! ## Every location in use decodes -/

/-- The locations a goroutine's batch holds, from `Flush` to `UpdateBatch`. -/
def Stage.batch : Stage → List ExtentLocation
  | .create es _ | .update es => es
  | _ => []

/-- A goroutine's batch is in its own segment, not yet installed. -/
theorem Flusher.Ok.batch {d : Disk} {f : Flusher} (hf : f.Ok d) {e : ExtentLocation}
    (he : e ∈ f.stage.batch) : e.segment = f.segId ∧ d.s.installed f.segId = false := by
  obtain ⟨oc, segId, stage⟩ := f
  cases stage with
  | create es stats => exact ⟨(hf.1 e he).1, hf.2.2.1⟩
  | update es => exact ⟨(hf.1 e he).1, hf.2.1⟩
  | _ => exact absurd he (List.not_mem_nil e)

section

variable {lz : Lz4} {objects : SegmentId → Option (List UInt8)} {loc : ExtentLocation}

/-- Storing an object under an id that holds none keeps every location stored. -/
theorem StoredOk.upload (h : StoredOk lz objects loc) {seg : SegmentId} (hnone : objects seg = none)
    (x : List UInt8) : StoredOk lz (fun s => if s = seg then some x else objects s) loc :=
  h.congr (if_neg fun hs => by obtain ⟨obj, hobj, -⟩ := h; rw [hs, hnone] at hobj; cases hobj)

/-- Removing another segment keeps a location stored. -/
theorem StoredOk.remove (h : StoredOk lz objects loc) {seg : SegmentId} (hne : loc.segment ≠ seg) :
    StoredOk lz (fun s => if s = seg then none else objects s) loc :=
  h.congr (if_neg hne)

end

section

variable {lz : Lz4} {d d' : Disk} {f : Flusher} {f' : Option Flusher}

/-- A goroutine's step keeps every location with bytes stored and decoding: the map's, its own
batch's, and any other in a segment not installed. It stores an object only under its own id,
which holds none before `Flush`, installs only its batch, and removes only installed segments
that no entry uses. -/
theorem Flusher.decodes_step (hg : GcInv d) (hf : f.Ok d) (hoc : f.stage = .flush → f.oc.Wf lz)
    (hnone : f.stage = .flush → d.objects f.segId = none)
    (hmap : ∀ l loc, d.lba2pba.Maps l loc → loc.size ≠ 0 → StoredOk lz d.objects loc)
    (hbatch : ∀ e ∈ f.stage.batch, e.size ≠ 0 → StoredOk lz d.objects e)
    (hs : f.step d = some (d', f')) :
    (d'.prevCache = d.prevCache ∨ d'.prevCache = none) ∧
      (∀ l loc, d'.lba2pba.Maps l loc → loc.size ≠ 0 → StoredOk lz d'.objects loc) ∧
      (∀ g ∈ f'.toList, ∀ e ∈ g.stage.batch, e.size ≠ 0 → StoredOk lz d'.objects e) ∧
      ∀ loc, d.s.installed loc.segment = false → StoredOk lz d.objects loc →
        StoredOk lz d'.objects loc := by
  -- A goroutine on to a stage with no batch.
  have hnil : ∀ st : Stage, st.batch = [] → ∀ g ∈ (some { f with stage := st }).toList,
      ∀ e ∈ g.stage.batch, e.size ≠ 0 → StoredOk lz d'.objects e := fun st hst g hg e he => by
    obtain rfl := List.mem_singleton.mp hg
    exact absurd (hst ▸ he) (List.not_mem_nil e)
  cases hst : f.stage with
  | flush =>
    rw [Flusher.Ok, hst] at hf
    obtain ⟨idx, -, rfl, rfl⟩ := Flusher.step_flush hst hs
    have hup : ∀ loc, StoredOk lz d.objects loc → StoredOk lz (fun s => if s = f.segId
        then some f.oc.segmentBytes else d.objects s) loc := fun loc h => h.upload (hnone hst) _
    refine ⟨.inl rfl, fun l loc hl hsz => hup _ (hmap l loc hl hsz), fun g hg e he hsz => ?_,
      fun loc _ => hup loc⟩
    obtain rfl := List.mem_singleton.mp hg
    obtain ⟨r, hr, rfl⟩ := List.mem_map.mp he
    exact storedOk_locations (hoc hst) hf.1 hr hsz (if_pos rfl)
  | create es stats =>
    obtain ⟨rfl, rfl⟩ := Flusher.step_create hst hs
    refine ⟨.inl rfl, hmap, fun g hg => ?_, fun _ _ => id⟩
    obtain rfl := List.mem_singleton.mp hg
    rw [hst] at hbatch
    exact hbatch
  | update es =>
    rw [Flusher.Ok, hst] at hf
    obtain ⟨hb, -, hreg, -⟩ := hf
    obtain ⟨rfl, rfl⟩ := Flusher.step_update hst hs
    obtain ⟨-, -, hmaps⟩ := ExtentMap.updateBatch_spec es hb hg.1 hg.2.1 hreg
    refine ⟨.inl rfl, fun l loc hl hsz => ?_, hnil .clear rfl, fun _ _ => id⟩
    rcases (hmaps l loc).mp hl with hnew | ⟨-, hold⟩
    · rw [hst] at hbatch
      exact hbatch loc (ExtentMap.latestIn_mem hnew) hsz
    · exact hmap l loc hold hsz
  | clear =>
    obtain ⟨rfl, rfl⟩ := Flusher.step_clear hst hs
    exact ⟨.inr rfl, hmap, hnil .findDeleted rfl, fun _ _ => id⟩
  | findDeleted =>
    obtain ⟨rfl, rfl⟩ := Flusher.step_findDeleted hst hs
    exact ⟨.inl rfl, hmap, hnil (.remove _) rfl, fun _ _ => id⟩
  | remove segs =>
    rw [Flusher.Ok, hst] at hf
    rcases Flusher.step_remove hst hs with ⟨rfl, rfl⟩ | ⟨i, is, idx, rfl, -, rfl, rfl⟩
    · exact ⟨.inl rfl, hmap, nofun, fun _ _ => id⟩
    · obtain ⟨hii, hno⟩ := hf i (List.mem_cons_self _ _)
      refine ⟨.inl rfl, fun l loc hl hsz => (hmap l loc hl hsz).remove (hno l loc hl),
        hnil (.remove is) rfl, fun loc hni h => h.remove fun he => ?_⟩
      rw [he, hii] at hni
      cases hni

end

namespace Sys

/-- What every interleaving keeps of the bytes a read decodes: the previous creator well formed,
and every location with bytes that the map uses, or that a goroutine's batch will install, stored
and decoding to as many bytes as its full extent has. -/
structure Decodes (lz : Lz4) (S : Sys) : Prop where
  prev : ∀ p, S.disk.prevCache = some p → p.Wf lz
  map : ∀ l loc, S.disk.lba2pba.Maps l loc → loc.size ≠ 0 → StoredOk lz S.disk.objects loc
  batch : ∀ f ∈ S.flushers, ∀ e ∈ f.stage.batch, e.size ≠ 0 → StoredOk lz S.disk.objects e

/-- A new volume maps nothing and has no goroutine. -/
theorem decodes_init (lz : Lz4) (s0 : SegmentId) : (init s0).Decodes lz :=
  ⟨fun _ h => (nomatch h), fun _ _ ⟨_, hx, _⟩ => (nomatch hx), fun _ hf => (nomatch hf)⟩

section

variable {lz : Lz4} {env : WriteEnv} {S S' : Sys} {a : Action}

/-- Every step keeps every location in use decoding. The writer's steps and the readers' leave the
store, the map and the goroutines as they are; `SetWhenClear` puts a well-formed creator in the
previous cache and starts a goroutine with no batch yet. -/
theorem Decodes.step (hd : S.Decodes lz) (hc : S.Coherent lz) (h : S.Inv) (hcl : S.Clean)
    (hs : S.step lz env a = some S') : S'.Decodes lz := by
  cases a with
  | write data => obtain ⟨_, -, -, rfl⟩ := step_write hs; exact ⟨hd.1, hd.2, hd.3⟩
  | zero rng => obtain ⟨_, -, -, rfl⟩ := step_zero hs; exact ⟨hd.1, hd.2, hd.3⟩
  | replace =>
    obtain ⟨-, hr⟩ := step_replace hs
    split at hr
    · subst hr; exact ⟨hd.1, hd.2, hd.3⟩
    · split_ifs at hr <;> subst hr <;> exact ⟨hd.1, hd.2, hd.3⟩
  | setWhenClear =>
    obtain ⟨oc, segId, hheld, -, rfl⟩ := step_setWhenClear hs
    obtain ⟨c, hoc, hwf⟩ := hc.held _ _ hheld
    refine ⟨fun p hp => ?_, hd.2, fun f hf => ?_⟩
    · obtain rfl := Option.some.inj (hoc.symm.trans hp)
      exact hwf
    · rcases List.mem_append.mp hf with hf | hf
      · exact hd.3 f hf
      · obtain rfl := List.mem_singleton.mp hf
        exact fun e he => absurd he (List.not_mem_nil e)
  | flushStep i =>
    obtain ⟨f, d', f', hi, hf, rfl⟩ := step_flushStep hs
    have hfm := List.getElem?_mem hi
    obtain ⟨hprev, hmap, hself, hother⟩ := Flusher.decodes_step h.gc (h.flushers f hfm)
      (fun hst => (hc.pending f hfm (by rw [hst]; rfl)).2.1)
      (fun hst => hcl.unflushed _ (.inl ⟨f, hfm, hst, rfl⟩)) hd.2 (hd.3 f hfm) hf
    -- Another goroutine's batch is in its own segment, not installed.
    have hkeep : ∀ g ∈ S.flushers, ∀ e ∈ g.stage.batch, e.size ≠ 0 → StoredOk lz d'.objects e :=
      fun g hg e he hsz => by
        obtain ⟨hseg, hni⟩ := (h.flushers g hg).batch he
        exact hother e (hseg ▸ hni) (hd.3 g hg e he hsz)
    refine ⟨fun p hp => ?_, hmap, fun g hg => ?_⟩
    · rcases hprev with hprev | hprev <;> rw [hprev] at hp
      · exact hd.1 p hp
      · cases hp
    · rcases mem_setOrDrop hg with hg | hg | hg
      · exact hself g hg
      · exact hkeep g (List.mem_of_mem_take hg)
      · exact hkeep g (List.mem_of_mem_drop hg)
  | readStart rng => obtain ⟨_, rfl⟩ := step_readStart hs; exact ⟨hd.1, hd.2, hd.3⟩
  | readStep i => obtain ⟨_, _, _, rfl⟩ := step_readStep hs; exact ⟨hd.1, hd.2, hd.3⟩
  | cancel seg => obtain rfl := step_cancel hs; exact ⟨hd.1, hd.2, hd.3⟩

/-- The id drawn next, on a run with an id to draw at each seal, is above `curSeq`. -/
theorem lt_of_reliable {s : SegmentId} {n : ℕ} (hrel : reliable env s (n + 1) = true) :
    ∀ s', env.nextSeq s = some s' → s < s' := fun s' hs' => by
  obtain ⟨s'', hs'', hlt, -⟩ := reliable_succ.mp hrel
  rw [hs', Option.some.injEq] at hs''
  exact hs'' ▸ hlt

/-- What every state of an interleaving keeps: the registry's invariant, a clean store and extent
cache, layers that show the acknowledged writes, and every location in use decoding. -/
structure Safe (lz : Lz4) (S : Sys) : Prop where
  inv : S.Inv
  clean : S.Clean
  coherent : S.Coherent lz
  decodes : S.Decodes lz

/-- A new volume. -/
theorem safe_init (lz : Lz4) (s0 : SegmentId) : (init s0).Safe lz :=
  ⟨inv_init s0, clean_init s0, coherent_init lz s0, decodes_init lz s0⟩

/-- Every valid action, with an id to draw and a creator made at each seal, keeps the state safe. -/
theorem Safe.step (hg : S.Safe lz) (hlz : lz.Inverts) (ha : a.Valid) {n : ℕ}
    (hrel : reliable env S.disk.curSeq (n + 1) = true) (hs : S.step lz env a = some S') :
    S'.Safe lz ∧ reliable env S'.disk.curSeq n = true := by
  have henv := lt_of_reliable hrel
  obtain ⟨hc, hrel'⟩ := hg.coherent.step hg.inv hlz ha hrel hs
  exact ⟨⟨hg.inv.step henv ha hs, hg.clean.step hg.inv henv hs, hc,
    hg.decodes.step hg.coherent hg.inv hg.clean hs⟩, hrel'⟩

/-- Every interleaving of valid actions, with an id to draw and a creator made at each seal, keeps
the state safe, and leaves the ids it did not draw. -/
theorem Safe.run (hg : S.Safe lz) (hlz : lz.Inverts) {acts : List Action}
    (hacts : ∀ a ∈ acts, a.Valid) (k : ℕ)
    (hrel : reliable env S.disk.curSeq (acts.length + k) = true)
    (hrun : Sys.run lz env S acts = some S') : S'.Safe lz ∧ reliable env S'.disk.curSeq k = true := by
  induction acts generalizing S with
  | nil =>
    cases hrun
    exact ⟨hg, by simpa using hrel⟩
  | cons a as ih =>
    obtain ⟨S₁, h₁, hrun⟩ := Option.bind_eq_some.mp hrun
    rw [List.length_cons, Nat.add_right_comm] at hrel
    obtain ⟨hg₁, hrel₁⟩ := hg.step hlz (hacts a (List.mem_cons_self _ _)) hrel h₁
    exact ih hg₁ (fun b hb => hacts b (List.mem_cons_of_mem _ hb)) hrel₁ hrun

/-- A safe state gives what a read relies on, reading the stored objects: every entry with bytes
reads back in full and decodes, and the extent cache agrees with the store. -/
theorem Safe.readContract (hg : S.Safe lz) : ReadContract lz (s3Reads S.disk.objects) S.disk := by
  obtain ⟨oc, hcur, hoc⟩ := hg.coherent.cur
  refine ⟨⟨oc, hcur, hoc⟩, hg.decodes.prev, hg.inv.gc.1, fun x hx hsz => ?_,
    fun loc raw hloc obj hobj => (hg.clean.cache _ (mem_of_lookup hloc) obj hobj).symm⟩
  obtain ⟨obj, hobj, hoff, hend, cooked, hdec, hlen⟩ :=
    hg.decodes.map _ _ (ExtentMap.maps_of_mem hx (hg.inv.gc.1.pos x hx)) hsz
  have hraw : (bytesAt obj x.offset x.size).length = x.size := by
    rw [length_bytesAt]
    omega
  exact ⟨_, by simp [storedBytes, hobj], by simp [s3Reads, hobj], by simp [s3Reads, hobj, hoff],
    hraw, cooked, hdec, hlen⟩

end

/-! ## A later state keeps the store of an earlier one -/

/-- What `S` keeps of the store of an earlier state `S₀`: a segment stored at `S₀` is stored with
the same bytes or gone for good, and what the extent cache holds under it is its bytes at the
key. -/
structure Keeps (S₀ S : Sys) : Prop where
  objects : ∀ s obj, S₀.disk.objects s = some obj → S.disk.objects s = some obj ∨ S.Gone s
  cache : ∀ e ∈ S.disk.extentCache.entries, ∀ obj, S₀.disk.objects e.1.1 = some obj →
    bytesAt obj e.1.2.1 e.1.2.2 = e.2

section

variable {lz : Lz4} {env : WriteEnv} {S₀ S S' : Sys} {a : Action}

/-- A clean state keeps its own store. -/
theorem Clean.keeps (hc : S.Clean) : S.Keeps S := ⟨fun _ _ h => .inl h, hc.cache⟩

/-- Every step keeps the store of an earlier state: a segment is uploaded once and then only
removed for good, and a read adds to the extent cache only what its segment stores. -/
theorem Keeps.step (hk : S₀.Keeps S) (hc : S.Clean) (h : S.Inv)
    (henv : ∀ s', env.nextSeq S.disk.curSeq = some s' → S.disk.curSeq < s')
    (hs : S.step lz env a = some S') : S₀.Keeps S' := by
  refine ⟨fun s obj h₀ => ?_, fun e he obj h₀ => ?_⟩
  · obtain ⟨hkeep, hgone⟩ := hc.objects_step h henv hs s
    exact (hk.objects s obj h₀).elim (hkeep obj) (.inr ∘ hgone)
  · rcases step_cache hs e he with hold | ⟨obj', hobj', hb⟩
    · exact hk.cache e hold obj h₀
    · rcases hk.objects _ obj h₀ with h₁ | hg
      · rw [h₁, Option.some.injEq] at hobj'
        exact hobj' ▸ hb
      · rw [hg.1] at hobj'
        cases hobj'

/-- Fetching a location whose segment `S₀` stores, at a state that keeps the store of `S₀`: the
bytes it had at `S₀`, or nothing, its segment gone for good. -/
theorem Keeps.fetchExtent (hk : S₀.Keeps S) {pe : PartialExtent} {obj : List UInt8}
    (hobj : S₀.disk.objects pe.segment = some obj) (hoff : pe.offset < obj.length)
    {raw : Option (List UInt8)} {d' : Disk}
    (h : fetchExtent (s3Reads S.disk.objects) S.disk pe = .ok (raw, d')) :
    raw = some (bytesAt obj pe.offset pe.size) ∨ raw = none ∧ S.Gone pe.segment := by
  unfold Disk.fetchExtent at h
  split at h
  · rename_i raw' hc
    cases h
    exact .inl (congrArg some (hk.cache _ (mem_of_lookup hc) obj hobj).symm)
  · split at h
    split_ifs at h
    all_goals
      split at h
      · rename_i hread
        cases h
        rcases hk.objects _ obj hobj with h₁ | hg
        · simp [s3Reads, h₁, hoff] at hread
        · exact .inr ⟨rfl, hg⟩
      · rename_i raw' hread
        split_ifs at h
        cases h
        rcases hk.objects _ obj hobj with h₁ | hg
        · simp only [s3Reads, h₁, Option.some_bind, hoff, if_true, Option.some.injEq] at hread
          exact .inl (congrArg some hread.symm)
        · simp [s3Reads, hg.1] at hread

end

end Sys

/-! ## A request read at a later state -/

/-- What a read request was built from at the state `d` the read started in, for a read of `ext`:
a clamp, not empty, of an entry with bytes, stored there and decoding to its full extent; blocks
that neither creator held, so that `view` read them from the entry; and holes within the read,
each containing the clamp. -/
structure ReadRequest.Reads (lz : Lz4) (d : Disk) (ext : Extent) (req : ReadRequest) : Prop where
  pos : 0 < req.pe.usable.blocks
  sub : req.pe.usable ⊆ req.pe.extent
  size : req.pe.size ≠ 0
  holes : req.extents ≠ []
  within : ∀ x ∈ req.extents, req.pe.usable ⊆ x ∧ x ⊆ ext
  stored : StoredOk lz d.objects req.pe.toExtentLocation
  find : ∀ l ∈ req.pe.usable, d.lba2pba.find l = some req.pe.toExtentLocation
  uncached : ∀ l ∈ req.pe.usable, d.cacheLookup lz l = none

section

variable {lz : Lz4} {d : Disk} {ext : Extent} {req : ReadRequest}

/-- At the read's start, `view` reads a request's blocks from its entry. -/
theorem ReadRequest.Reads.view (hr : req.Reads lz d ext) {l : ℕ} (hl : l ∈ req.pe.usable) :
    d.view lz l = storedBlock lz d.objects req.pe.toExtentLocation l := by
  simp only [Disk.view, hr.uncached l hl, hr.find l hl]

/-- A request read at a state that keeps the store of the read's start `S₀`: either its segment
is gone for good and the range is left as it was, or its live blocks are set to what `view`
showed at `S₀` and the others kept. -/
theorem ReadRequest.Reads.readPartialExtent {S₀ S : Sys} (hr : req.Reads lz S₀.disk ext)
    (hk : S₀.Keeps S) {data data' : RangeData} (hd : data.Wf) (hext : data.extent = ext)
    {d' : Disk} (h : Disk.readPartialExtent lz (s3Reads S.disk.objects) S.disk req.pe req.extents
      data = .ok (data', d')) :
    data' = data ∧ S.Gone req.pe.segment ∨ data'.extent = data.extent ∧ data'.Wf ∧
      ∀ l ∈ data.extent,
        data'.block l = if l ∈ req.pe.usable then S₀.disk.view lz l else data.block l := by
  obtain ⟨obj, hobj, hoff, -, cooked, hdec, hlen⟩ := hr.stored
  obtain ⟨⟨raw, d₁⟩, hf, h⟩ := bind_eq_ok.mp h
  rcases hk.fetchExtent hobj hoff hf with rfl | ⟨rfl, hg⟩
  · obtain ⟨cooked', hdec', h⟩ := bind_eq_ok.mp h
    rw [hdec] at hdec'
    cases hdec'
    obtain ⟨dest, hfold, h⟩ := bind_eq_ok.mp h
    cases h
    obtain ⟨dest', hfold', he, hw, hb⟩ := foldlM_copyHole_spec hr.pos
      (show RangeData.Wf ⟨req.pe.extent, cooked⟩ from hlen) hr.sub req.extents hr.holes
      (fun x hx => hext ▸ hr.within x hx) hd
    rw [hfold'] at hfold
    cases hfold
    refine .inr ⟨he, hw, fun l hl => ?_⟩
    rw [hb l hl]
    split_ifs with hlu
    · rw [hr.view hlu, storedBlock_eq hr.size (by simp [storedBytes, hobj]) hdec]
    · rfl
  · cases h
    exact .inl ⟨rfl, hg⟩

end

/-! ## Readers in flight -/

/-- Block `l` of reader `r`, which started at `S₀`, seen at `S`: what `view` showed at `S₀`; or
zeros, while a request has still to read it or once the segment its entry was in at `S₀` is gone
for good. -/
def Reader.ReadsAt (lz : Lz4) (S₀ S : Sys) (r : Reader) (l : ℕ) : Prop :=
  r.data.block l = S₀.disk.view lz l ∨ r.data.block l = emptyBlock ∧
    ((∃ req ∈ r.reqs, l ∈ req.pe.usable) ∨
      ∃ loc, S₀.disk.lba2pba.find l = some loc ∧ S.Gone loc.segment)

/-- A reader in flight that started at `S₀`: a well-formed range, each request built at `S₀` for
it, and each block as `ReadsAt` says. -/
structure Reader.Holds (lz : Lz4) (S₀ S : Sys) (r : Reader) : Prop where
  wf : r.data.Wf
  reqs : ∀ req ∈ r.reqs, req.Reads lz S₀.disk r.data.extent
  block : ∀ l ∈ r.data.extent, r.ReadsAt lz S₀ S l

section

variable {lz : Lz4} {d : Disk} {S₀ S S' : Sys} {r r' : Reader}

/-- A reader's step that leaves it in flight: its first request read. -/
theorem Reader.step_some (hr : r' ∈ (r.step lz d).2.toList) :
    ∃ req reqs data' d', r.reqs = req :: reqs ∧
      readPartialExtent lz (s3Reads d.objects) d req.pe req.extents r.data = .ok (data', d') ∧
      r' = { r with data := data', reqs := reqs } := by
  unfold Reader.step at hr
  split at hr
  · cases hr
  · split at hr
    · exact ⟨_, _, _, _, ‹_›, ‹_›, List.mem_singleton.mp hr⟩
    · cases hr

/-- A reader holds on at a state where every segment gone for good before still is. -/
theorem Reader.Holds.mono (hh : r.Holds lz S₀ S) (hg : ∀ s, S.Gone s → S'.Gone s) :
    r.Holds lz S₀ S' :=
  ⟨hh.wf, hh.reqs, fun l hl => Or.imp_right (And.imp_right (Or.imp_right
    fun ⟨loc, hf, hgs⟩ => ⟨loc, hf, hg _ hgs⟩)) (hh.block l hl)⟩

/-- A reader's own step, at a state that keeps the store of its start, keeps it holding, over
the same range and from the same start: the request it reads sets its blocks to the view at the
start, or leaves them, its segment gone for good. -/
theorem Reader.Holds.step (hh : r.Holds lz S₀ S) (hk : S₀.Keeps S)
    (hr : r' ∈ (r.step lz S.disk).2.toList) :
    r'.Holds lz S₀ S ∧ r'.data.extent = r.data.extent ∧ r'.start = r.start := by
  obtain ⟨req, reqs, data', d', hreqs, hrp, rfl⟩ := Reader.step_some hr
  have hreq := hh.reqs req (hreqs ▸ List.mem_cons_self _ _)
  -- A block another request still has to read.
  have hpend : ∀ l, (∃ q ∈ r.reqs, l ∈ q.pe.usable) → l ∉ req.pe.usable →
      ∃ q ∈ reqs, l ∈ q.pe.usable := by
    rintro l ⟨q, hq, hlq⟩ hl
    rcases List.mem_cons.mp (hreqs ▸ hq) with rfl | hq
    · exact absurd hlq hl
    · exact ⟨q, hq, hlq⟩
  have hrest : ∀ q ∈ reqs, q ∈ r.reqs := fun q hq => hreqs ▸ List.mem_cons_of_mem _ hq
  rcases hreq.readPartialExtent hk hh.wf rfl hrp with ⟨rfl, hg⟩ | ⟨he, hw, hb⟩
  · refine ⟨⟨hh.wf, fun q hq => hh.reqs q (hrest q hq), fun l hl => ?_⟩, rfl, rfl⟩
    rcases hh.block l hl with hv | ⟨h0, hp | hgone⟩
    · exact .inl hv
    · by_cases hlu : l ∈ req.pe.usable
      · exact .inr ⟨h0, .inr ⟨_, hreq.find l hlu, hg⟩⟩
      · exact .inr ⟨h0, .inl (hpend l hp hlu)⟩
    · exact .inr ⟨h0, .inr hgone⟩
  · refine ⟨⟨hw, fun q hq => he ▸ hh.reqs q (hrest q hq), fun l hl => ?_⟩, he, rfl⟩
    have hl' : l ∈ r.data.extent := he ▸ hl
    unfold Reader.ReadsAt
    dsimp only
    rw [hb l hl']
    split_ifs with hlu
    · exact .inl rfl
    · rcases hh.block l hl' with hv | ⟨h0, hp | hgone⟩
      · exact .inl hv
      · exact .inr ⟨h0, .inl (hpend l hp hlu)⟩
      · exact .inr ⟨h0, .inr hgone⟩

end

section

variable {lz : Lz4} {S : Sys} {rng : Extent} {data : RangeData} {remaining : List Extent}

/-- The requests `ReadExtent` builds for the holes the write caches leave are built from the map
and the store of the state it starts in. -/
theorem readRequests_reads (hd : S.Decodes lz) (hm : S.disk.lba2pba.Wf)
    (hF : Filled rng (S.disk.cacheLookup lz) data remaining) :
    ∀ req ∈ readRequests S.disk.lba2pba remaining, req.Reads lz S.disk rng := by
  intro req hreq
  obtain ⟨hsz, hne, hxs⟩ := (readRequests_spec S.disk.lba2pba remaining).1 req hreq
  obtain ⟨x₀, hx₀⟩ := List.exists_mem_of_ne_nil _ hne
  obtain ⟨e, he, c, hclamp, hpe⟩ := ExtentMap.mem_resolve.mp (hxs x₀ hx₀).2
  have hloc : req.pe.toExtentLocation = e.toExtentLocation := by rw [hpe]
  -- The request's blocks are the entry's within the hole.
  have hlu : ∀ l ∈ req.pe.usable, l ∈ e.usable ∧ l ∈ x₀ := fun l hl =>
    (Extent.mem_clamp hclamp l).mp (by rw [hpe] at hl; exact hl)
  refine ⟨by rw [hpe]; exact Extent.clamp_blocks_pos hclamp, ?_, hsz, hne,
    fun x hx => ⟨?_, hF.sub x (hxs x hx).1⟩, ?_, fun l hl => ?_,
    fun l hl => ((hF.holes l).mp ⟨x₀, (hxs x₀ hx₀).1, (hlu l hl).2⟩).2⟩
  · rw [hpe]
    exact Extent.subset_trans (Extent.subset_of_mem (Extent.clamp_blocks_pos hclamp)
      fun l hl => ((Extent.mem_clamp hclamp l).mp hl).1) (hm.sub e he)
  · obtain ⟨e', -, c', hc', hpe'⟩ := ExtentMap.mem_resolve.mp (hxs x hx).2
    rw [hpe']
    exact Extent.subset_of_mem (Extent.clamp_blocks_pos hc') fun l hl =>
      ((Extent.mem_clamp hc' l).mp hl).2
  · rw [hloc]
    exact hd.map _ _ (ExtentMap.maps_of_mem he (hm.pos e he)) (hloc ▸ hsz)
  · rw [hloc]
    exact hm.find_eq_some.mpr ⟨e, he, (hlu l hl).1, rfl⟩

/-- A read just started holds as of the state it started in: a block a request reads is zeros,
neither creator holding it; any other is the view, by the write caches or the map. -/
theorem Reader.holds_start (hd : S.Decodes lz) (hm : S.disk.lba2pba.Wf)
    (hF : Filled rng (S.disk.cacheLookup lz) data remaining) :
    (⟨data, readRequests S.disk.lba2pba remaining, S.disk⟩ : Reader).Holds lz S S := by
  have hreqs := readRequests_reads hd hm hF
  refine ⟨hF.wf, fun req hreq => hF.extent ▸ hreqs req hreq, fun l hl => ?_⟩
  have hl' : l ∈ rng := hF.extent ▸ hl
  by_cases hp : ∃ req ∈ readRequests S.disk.lba2pba remaining, l ∈ req.pe.usable
  · obtain ⟨req, hreq, hlu⟩ := hp
    refine Or.inr ⟨?_, .inl ⟨req, hreq, hlu⟩⟩
    rw [hF.block l hl', (hreqs req hreq).uncached l hlu]
    rfl
  · exact Or.inl (view_of_unread hF hm (readRequests_spec _ _).2 hl' hp)

end

namespace Sys

section

variable {lz : Lz4} {env : WriteEnv} {S S' : Sys} {a : Action}

/-- Who reads after a step: a reader that was there; the one a read's start adds, with its fill
from the write caches, its requests and the disk it starts on; or one a reader's step leaves in
flight. -/
theorem mem_readers_step (hs : S.step lz env a = some S') {r : Reader} (hr : r ∈ S'.readers) :
    r ∈ S.readers ∨
      (∃ rng data remaining, a = .readStart rng ∧
        fillFromWriteCache lz S.disk (RangeData.new rng) = .ok (data, remaining) ∧
        r = ⟨data, readRequests S.disk.lba2pba remaining, S.disk⟩) ∨
      ∃ i r₀, a = .readStep i ∧ S.readers[i]? = some r₀ ∧ r ∈ (r₀.step lz S.disk).2.toList := by
  cases a with
  | readStart rng =>
    simp only [Sys.step] at hs
    split at hs
    · rename_i data remaining hfill
      cases hs
      split_ifs at hr
      · exact .inl hr
      · rcases List.mem_append.mp hr with hr | hr
        · exact .inl hr
        · exact .inr (.inl ⟨rng, data, remaining, rfl, hfill, List.mem_singleton.mp hr⟩)
    · cases hs
      exact .inl hr
  | readStep i =>
    simp only [Sys.step] at hs
    split at hs
    · cases hs
    · rename_i r₀ hi
      cases hs
      rcases mem_setOrDrop hr with hr | hr | hr
      · exact .inr (.inr ⟨i, r₀, rfl, hi, hr⟩)
      · exact .inl (List.mem_of_mem_take hr)
      · exact .inl (List.mem_of_mem_drop hr)
  | _ => exact .inl (step_readers (by rfl) hs ▸ hr)

/-- Every reader in flight started at a state `S₀`, at the disk it records, over a range that `P`
admits with `S₀`; `S` keeps the store of `S₀`, and the reader holds as of it. -/
def ReadersHold (lz : Lz4) (P : Sys → Extent → Prop) (S : Sys) : Prop :=
  ∀ r ∈ S.readers, ∃ S₀, P S₀ r.data.extent ∧ S₀.disk = r.start ∧ S₀.Keeps S ∧ r.Holds lz S₀ S

/-- Every step keeps the readers holding; a read the step starts holds as of the state before it. -/
theorem ReadersHold.step {P : Sys → Extent → Prop} (hR : ReadersHold lz P S) (hg : S.Safe lz)
    (henv : ∀ s', env.nextSeq S.disk.curSeq = some s' → S.disk.curSeq < s')
    (hs : S.step lz env a = some S') :
    ReadersHold lz (fun S₀ ext => P S₀ ext ∨ S₀ = S ∧ a = .readStart ext) S' := by
  have hgone : ∀ s, S.Gone s → S'.Gone s := fun s => (hg.clean.objects_step hg.inv henv hs s).2
  have hkeep : ∀ {S₀ : Sys}, S₀.Keeps S → S₀.Keeps S' := fun hk =>
    hk.step hg.clean hg.inv henv hs
  intro r hr
  rcases mem_readers_step hs hr with hr | ⟨rng, data, remaining, rfl, hfill, rfl⟩ |
    ⟨i, r₀, rfl, hi, hstep⟩
  · obtain ⟨S₀, hP, hd, hk, hh⟩ := hR r hr
    exact ⟨S₀, .inl hP, hd, hkeep hk, hh.mono hgone⟩
  · obtain ⟨oc, hcur, hoc⟩ := hg.coherent.cur
    obtain ⟨data', holes, hfill', hF⟩ := fillFromWriteCache_spec hcur hoc hg.decodes.prev rng
    rw [hfill] at hfill'
    cases hfill'
    exact ⟨S, .inr ⟨rfl, by rw [hF.extent]⟩, rfl, hkeep hg.clean.keeps,
      (Reader.holds_start hg.decodes hg.inv.gc.1 hF).mono hgone⟩
  · obtain ⟨S₀, hP, hd, hk, hh⟩ := hR r₀ (List.getElem?_mem hi)
    obtain ⟨hh', hext, hstart⟩ := hh.step hk hstep
    exact ⟨S₀, .inl (hext ▸ hP), hstart ▸ hd, hkeep hk, hh'.mono hgone⟩

/-- Over an interleaving of valid actions from a safe state, with an id to draw and a creator made
at each seal, every reader in flight at its end started, over its range, at one of the
interleaving's `readStart` actions, from the state before it; or at a state `P` admits. -/
theorem ReadersHold.run {P : Sys → Extent → Prop} (hR : ReadersHold lz P S) (hg : S.Safe lz)
    (hlz : lz.Inverts) {acts : List Action} (hacts : ∀ a ∈ acts, a.Valid)
    (hrel : reliable env S.disk.curSeq acts.length = true)
    (hrun : Sys.run lz env S acts = some S') :
    ReadersHold lz (fun S₀ ext => P S₀ ext ∨ ∃ k, Sys.run lz env S (acts.take k) = some S₀ ∧
      acts[k]? = some (.readStart ext)) S' := by
  induction acts generalizing S P with
  | nil =>
    cases hrun
    exact fun r hr => (hR r hr).imp fun _ ⟨hP, hd, hk, hh⟩ => ⟨.inl hP, hd, hk, hh⟩
  | cons a as ih =>
    obtain ⟨S₁, h₁, hrun⟩ := Option.bind_eq_some.mp hrun
    obtain ⟨hg₁, hrel₁⟩ := hg.step hlz (hacts a (List.mem_cons_self _ _)) hrel h₁
    have hR' := ih (hR.step hg (lt_of_reliable hrel) h₁) hg₁
      (fun b hb => hacts b (List.mem_cons_of_mem _ hb)) hrel₁ hrun
    intro r hr
    obtain ⟨S₀, (hP | ⟨rfl, ha⟩) | ⟨k, hk, hka⟩, hd, hkeep, hh⟩ := hR' r hr
    · exact ⟨S₀, .inl hP, hd, hkeep, hh⟩
    · exact ⟨_, .inr ⟨0, rfl, by rw [ha, List.getElem?_cons_zero]⟩, hd, hkeep, hh⟩
    · refine ⟨S₀, .inr ⟨k + 1, ?_, List.getElem?_cons_succ.trans hka⟩, hd, hkeep, hh⟩
      rw [List.take_succ_cons, Sys.run, h₁, Option.some_bind]
      exact hk

end

end Sys

/-! ## Over every interleaving -/

/-- Over every interleaving of valid actions from a new volume, with an id to draw and a creator
made at each seal, every entry of the extent map with bytes is stored in full, and its bytes decode
without error to as many bytes as its full extent has. -/
theorem run_mapped_extents_decode {lz : Lz4} (hlz : lz.Inverts) {env : WriteEnv} {s0 : SegmentId}
    {acts : List Action} (hacts : ∀ a ∈ acts, a.Valid) (hrel : reliable env s0 acts.length = true)
    {S : Sys} (hrun : Sys.run lz env (Sys.init s0) acts = some S) :
    ∀ x ∈ S.disk.lba2pba.entries, x.size ≠ 0 → StoredOk lz S.disk.objects x.toExtentLocation := by
  have hg := ((Sys.safe_init lz s0).run hlz hacts 0 hrel hrun).1
  exact fun x hx hsz => hg.decodes.map _ _ (ExtentMap.maps_of_mem hx (hg.inv.gc.1.pos x hx)) hsz

/-- The race of a read with the cleanup keeps every entry of the map decoding. -/
theorem run_mapped_extents_decode_in_gcRace :
    Lz4.never.Inverts ∧ (∀ a ∈ gcRace, a.Valid) ∧ reliable countingEnv 0 gcRace.length = true ∧
      ∃ S, Sys.run Lz4.never countingEnv (Sys.init 0) gcRace = some S ∧
        ∀ x ∈ S.disk.lba2pba.entries, x.size ≠ 0 →
          StoredOk Lz4.never S.disk.objects x.toExtentLocation := by
  have hrel : reliable countingEnv 0 gcRace.length = true := by decide
  obtain ⟨S, hrun⟩ : ∃ S, Sys.run Lz4.never countingEnv (Sys.init 0) gcRace = some S :=
    Option.isSome_iff_exists.mp (by rfl)
  exact ⟨Lz4.never_inverts, gcRace_valid, hrel, S, hrun,
    run_mapped_extents_decode Lz4.never_inverts gcRace_valid hrel hrun⟩

/-- Over every interleaving of valid actions from a new volume, with an id to draw and a creator
made at each seal, a `ReadExtent` run on its own at any point succeeds, changes only the caches,
and returns the disk's `view` at every block of its range: with the writer between operations,
the latest acknowledged write. -/
theorem run_readExtent_returns_acked {lz : Lz4} (hlz : lz.Inverts) {env : WriteEnv}
    {s0 : SegmentId} {acts : List Action} (hacts : ∀ a ∈ acts, a.Valid)
    (hrel : reliable env s0 acts.length = true) {S : Sys}
    (hrun : Sys.run lz env (Sys.init s0) acts = some S) (rng : Extent) :
    ∃ data c o, S.disk.readExtent lz (s3Reads S.disk.objects) rng =
        .ok (data, { S.disk with extentCache := c, openSegments := o }) ∧ data.extent = rng ∧
      ∀ l ∈ rng, data.block l = S.disk.view lz l ∧ (S.held = none → data.block l = S.acked l) := by
  have hg := ((Sys.safe_init lz s0).run hlz hacts 0 hrel hrun).1
  obtain ⟨data, c, o, hread, hext, -, hview, -, -⟩ := readExtent_spec hg.readContract rng
  refine ⟨data, c, o, hread, hext, fun l hl => ⟨hview l hl, fun hh => ?_⟩⟩
  rw [hview l hl, ← congrFun (Sys.view_of_held_none hh) l]
  exact congrFun hg.coherent.view l

/-- At the end of the race of a read with the cleanup, a read of block 0 on its own returns the
second write. -/
theorem run_readExtent_returns_acked_in_gcRace :
    Lz4.never.Inverts ∧ (∀ a ∈ gcRace, a.Valid) ∧ reliable countingEnv 0 gcRace.length = true ∧
      ∃ S, Sys.run Lz4.never countingEnv (Sys.init 0) gcRace = some S ∧
        ∃ data c o, S.disk.readExtent Lz4.never (s3Reads S.disk.objects) ⟨0, 1⟩ =
            .ok (data, { S.disk with extentCache := c, openSegments := o }) ∧
          data.extent = ⟨0, 1⟩ ∧ ∀ l ∈ (⟨0, 1⟩ : Extent), data.block l = S.disk.view Lz4.never l ∧
            (S.held = none → data.block l = S.acked l) := by
  have hrel : reliable countingEnv 0 gcRace.length = true := by decide
  obtain ⟨S, hrun⟩ : ∃ S, Sys.run Lz4.never countingEnv (Sys.init 0) gcRace = some S :=
    Option.isSome_iff_exists.mp (by rfl)
  exact ⟨Lz4.never_inverts, gcRace_valid, hrel, S, hrun,
    run_readExtent_returns_acked Lz4.never_inverts gcRace_valid hrel hrun ⟨0, 1⟩⟩

end Disk

end Lsvd
