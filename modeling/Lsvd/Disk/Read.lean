import Lsvd.Disk.Basic

/-!
# The read path

`readExtent` is `Disk.ReadExtent`: a zeroed range, filled first from the current creator
(`fillFromWriteCache`), then, hole by hole, from the previous one (`fillingFromPrevWriteCache`);
each hole left is resolved in the extent map into read requests (`readRequests`), and each
request is read by `readPartialExtent`: its raw bytes from the extent cache or the segment, decoded,
and copied into the range over the holes it serves. The views Go takes with `SubRange` and writes
through are `RangeData.writeBack`s here.

`view` is what the disk holds at a block through the three layers: the current creator's latest
record for it, else the previous creator's, else the block its extent-map entry stores in the
segment, else zeros. Under `ReadContract`, the store's reads succeed on every live entry and the
extent cache agrees with the store, and then `readExtent_spec` says a read returns `view` at
every block and keeps the contract. It is built from one lemma per stage: `fillFromWriteCache_spec`,
`readRequests_spec` and `readPartialExtent_spec`.
-/

namespace Lsvd

namespace Disk

/-! ## The write caches -/

/-- The holes a fill leaves of extent `e`, given the extents it filled: `e` itself if it filled
none, else what `SubMany` leaves. -/
def holesLeft (e : Extent) (used : List Extent) : Option (List Extent) :=
  if used = [] then some [e] else e.subMany used

/-- One hole of `fillingFromPrevWriteCache`: the range's view over it filled from `oc`, written
back, and what `oc` did not hold of it kept as holes. -/
def fillHole (lz : Lz4) (oc : SegmentCreator) (acc : RangeData × List Extent) (sub : Extent) :
    Except ReadError (RangeData × List Extent) :=
  match acc.1.subRange sub with
  | none => .error .subrange
  | some sr =>
    match oc.fillExtent lz sr with
    | none => .error .fillExtent
    | some (sr, used) =>
      match holesLeft sub used with
      | none => .error .partialHoles
      | some res => .ok (acc.1.writeBack sr, acc.2 ++ res)

/-- `fillingFromPrevWriteCache(data, holes)`: with no previous creator the holes stay;
otherwise each is filled from it in turn. -/
def fillingFromPrevWriteCache (lz : Lz4) (d : Disk) (data : RangeData) (holes : List Extent) :
    Except ReadError (RangeData × List Extent) :=
  match d.prevCache with
  | none => .ok (data, holes)
  | some oc => holes.foldlM (fillHole lz oc) (data, [])

/-- `fillFromWriteCache(data)`: the range filled from the current creator, the blocks it did not
hold as holes, then passed on to the previous creator. -/
def fillFromWriteCache (lz : Lz4) (d : Disk) (data : RangeData) :
    Except ReadError (RangeData × List Extent) :=
  match d.curOC with
  | none => .error .nilCreator
  | some oc =>
    match oc.fillExtent lz data with
    | none => .error .fillExtent
    | some (data, used) =>
      match holesLeft data.extent used with
      | none => .error .remaining
      | some remaining => fillingFromPrevWriteCache lz d data remaining

/-! ## Read requests -/

/-- `readRequest`: an entry to read and the holes it serves. -/
structure ReadRequest where
  pe : PartialExtent
  extents : List Extent
deriving DecidableEq, Repr

/-- One entry that `Resolve` returns for hole `h`: skipped when it has no bytes; added to the
last request when it is the same entry, else a new request. -/
def addRequest (h : Extent) (reqs : List ReadRequest) (pe : PartialExtent) : List ReadRequest :=
  if pe.size = 0 then reqs
  else match reqs.getLast? with
    | some last =>
      if last.pe = pe then reqs.dropLast ++ [{ last with extents := last.extents ++ [h] }]
      else reqs ++ [⟨pe, [h]⟩]
    | none => reqs ++ [⟨pe, [h]⟩]

/-- The read requests `ReadExtent` builds for the holes left. -/
def readRequests (m : ExtentMap) (remaining : List Extent) : List ReadRequest :=
  remaining.foldl (fun reqs h => (m.resolve h).foldl (addRequest h) reqs) []

/-! ## Reading one entry -/

/-- The raw bytes of `pe` as `readPartialExtent` gets them: from the extent cache, else read from
the segment, opened first unless it is in `openSegments`, and written back to the cache. `none` is
a failed `ReadAt`, on which `readPartialExtent` returns `nil` at once. -/
def fetchExtent (io : SegmentReads) (d : Disk) (pe : PartialExtent) :
    Except ReadError (Option (List UInt8) × Disk) :=
  match d.extentCache.readExtent pe.toExtentLocation with
  | some raw => .ok (some raw, d)
  | none =>
    let (hit, lru) := lruGet d.openSegments pe.segment
    if !hit && !io.openSegment pe.segment then .error (.openSegment pe.segment)
    else
      let d := { d with openSegments := if hit then lru else lruAdd lru pe.segment }
      match io.readAt pe.segment pe.offset pe.size with
      | none => .ok (none, d)
      | some raw =>
        if raw.length ≠ pe.size then .error .shortRead
        else .ok (some raw,
          { d with extentCache := d.extentCache.writeExtent pe.toExtentLocation raw })

/-- The decoding of raw bytes in `readPartialExtent`: LZ4 into a buffer of `RawSize` bytes, which
it must fill exactly, for `Compressed`; the bytes themselves for `Uncompressed`; an error for any
other flags. -/
def decodeExtent (lz : Lz4) (loc : ExtentLocation) (raw : List UInt8) :
    Except ReadError (List UInt8) :=
  if loc.flags = Compressed then
    match lz.uncompressBlock raw with
    | none => .error (.uncompress raw.length loc.rawSize)
    | some out =>
      if loc.rawSize < out.length then .error (.uncompress raw.length loc.rawSize)
      else if out.length ≠ loc.rawSize then .error .uncompressSize
      else .ok out
  else if loc.flags ≠ Uncompressed then .error (.unknownFlags loc.flags)
  else .ok raw

/-- One hole of a request: the entry's live blocks in it copied from the source, the bytes of
the entry's full extent, into the destination. -/
def copyHole (pe : PartialExtent) (src dest : RangeData) (x : Extent) :
    Except ReadError RangeData :=
  match pe.usable.clamp x with
  | none => .error .clampRange
  | some overlap =>
    match dest.subRange overlap with
    | none => .error (.clampDest pe.usable overlap)
    | some subDest =>
      match src.subRange overlap with
      | none => .error .sourceSubrange
      | some subSrc => .ok (dest.writeBack { subDest with data := goCopy subDest.data subSrc.data })

/-- `readPartialExtent(pe, rngs, dataRange, dest)` (`dataRange` is not read): the entry's bytes
fetched and decoded, then copied into `dest` over each hole. -/
def readPartialExtent (lz : Lz4) (io : SegmentReads) (d : Disk) (pe : PartialExtent)
    (rngs : List Extent) (dest : RangeData) : Except ReadError (RangeData × Disk) := do
  let (raw, d) ← fetchExtent io d pe
  match raw with
  | none => pure (dest, d)
  | some raw =>
    let cooked ← decodeExtent lz pe.toExtentLocation raw
    let dest ← rngs.foldlM (copyHole pe ⟨pe.extent, cooked⟩) dest
    pure (dest, d)

/-- `ReadExtent(rng)`: the range, the disk with its caches as the read left them. -/
def readExtent (lz : Lz4) (io : SegmentReads) (d : Disk) (rng : Extent) :
    Except ReadError (RangeData × Disk) := do
  let (data, remaining) ← fillFromWriteCache lz d (RangeData.new rng)
  if remaining = [] then return (data, d)
  (readRequests d.lba2pba remaining).foldlM
    (fun (acc : RangeData × Disk) o => readPartialExtent lz io acc.2 o.pe o.extents acc.1) (data, d)

/-! ## What a read should return -/

/-- The block `l` of a location as stored: zeros for an entry with no bytes, else block `l` of
its full extent's bytes in its segment, decoded; zeros when there are none. -/
def storedBlock (lz : Lz4) (objects : SegmentId → Option (List UInt8)) (loc : ExtentLocation)
    (l : ℕ) : Block :=
  if loc.size = 0 then emptyBlock
  else match objects loc.segment with
    | none => emptyBlock
    | some obj =>
      match decodeExtent lz loc (bytesAt obj loc.offset loc.size) with
      | .ok cooked => (⟨loc.extent, cooked⟩ : RangeData).block l
      | .error _ => emptyBlock

/-- What the current creator, then the previous one, hold at block `l`. -/
def cacheLookup (lz : Lz4) (d : Disk) (l : ℕ) : Option Block :=
  match d.curOC.bind fun oc => oc.lookup lz l with
  | some b => some b
  | none => d.prevCache.bind fun oc => oc.lookup lz l

/-- What the disk holds at block `l` through the layers `ReadExtent` consults: the current
creator, the previous creator, the extent map's entry and its segment, zeros. -/
def view (lz : Lz4) (d : Disk) (l : ℕ) : Block :=
  match d.cacheLookup lz l with
  | some b => b
  | none =>
    match d.lba2pba.find l with
    | some loc => storedBlock lz d.objects loc l
    | none => emptyBlock

/-! ## The write caches, proved -/

/-- The holes a fill leaves are the blocks of the extent it did not fill, each within the
extent. -/
theorem holesLeft_spec {e : Extent} {used : List Extent} {P : ℕ → Prop}
    (hcov : ∀ l, (∃ u ∈ used, l ∈ u) ↔ l ∈ e ∧ P l) (hpos : ∀ u ∈ used, 0 < u.blocks) :
    ∃ hs, holesLeft e used = some hs ∧ (∀ l, (∃ h ∈ hs, l ∈ h) ↔ l ∈ e ∧ ¬P l) ∧
      ∀ h ∈ hs, h ⊆ e := by
  unfold holesLeft
  split_ifs with hu
  · subst hu
    refine ⟨[e], rfl, fun l => ?_, fun h hh => List.mem_singleton.mp hh ▸ Extent.subset_refl e⟩
    have := hcov l
    simp only [List.not_mem_nil, false_and, exists_false, false_iff, not_and,
      List.mem_singleton, exists_eq_left] at this ⊢
    exact ⟨fun hl => ⟨hl, this hl⟩, fun h => h.1⟩
  · obtain ⟨u, hu'⟩ := List.exists_mem_of_ne_nil used hu
    have hue : u.lba ∈ e :=
      ((hcov u.lba).mp ⟨u, hu', Extent.mem_iff.mpr ⟨le_rfl, by have := hpos u hu'; omega⟩⟩).1
    obtain ⟨hs, h, hm, hp⟩ :=
      Extent.subMany_spec (show 0 < e.blocks by rw [Extent.mem_iff] at hue; omega) hpos
    refine ⟨hs, h, fun l => ?_, fun h' hh =>
      Extent.subset_of_mem (hp h' hh) fun l hl => ((hm l).mp ⟨h', hh, hl⟩).1⟩
    rw [hm l]
    constructor
    · rintro ⟨hl, hn⟩
      exact ⟨hl, fun hP => let ⟨u, hu, hlu⟩ := (hcov l).mpr ⟨hl, hP⟩; hn u hu hlu⟩
    · rintro ⟨hl, hn⟩
      exact ⟨hl, fun u hu hlu => hn ((hcov l).mp ⟨u, hu, hlu⟩).2⟩

/-- What filling the holes `hs` of `data` from `oc` has done: the range is well formed over the
same extent, each block in a hole holds what `oc` holds there, if anything, the others are as
they were, and the holes left, within the extent, are the blocks of `hs` that `oc` does not hold. -/
structure PrevFilled (lz : Lz4) (oc : SegmentCreator) (data : RangeData) (hs : List Extent)
    (acc : RangeData × List Extent) : Prop where
  extent : acc.1.extent = data.extent
  wf : acc.1.Wf
  block : ∀ l ∈ data.extent, acc.1.block l =
    if ∃ h ∈ hs, l ∈ h then (oc.lookup lz l).getD (data.block l) else data.block l
  holes : ∀ l, (∃ r ∈ acc.2, l ∈ r) ↔ (∃ h ∈ hs, l ∈ h) ∧ oc.lookup lz l = none
  sub : ∀ r ∈ acc.2, r ⊆ data.extent

/-- One hole filled from a well-formed creator keeps `PrevFilled`. -/
theorem PrevFilled.fillHole {lz : Lz4} {oc : SegmentCreator} (hoc : oc.Wf lz) {data : RangeData}
    {hs : List Extent} {acc : RangeData × List Extent} (h : PrevFilled lz oc data hs acc)
    {sub : Extent} (hsub : sub ⊆ data.extent) :
    ∃ acc', Disk.fillHole lz oc acc sub = .ok acc' ∧ PrevFilled lz oc data (hs ++ [sub]) acc' := by
  have hsr := RangeData.subRange_of_subset (h.extent ▸ hsub : sub ⊆ acc.1.extent)
  obtain ⟨sr, used, hfill, hext, hwf, hblk, hcov, hpos⟩ := SegmentCreator.fillExtent_spec hoc
    (RangeData.wf_subRange h.wf hsr)
  obtain ⟨res, hres, hrcov, hrsub⟩ := holesLeft_spec hcov hpos
  have hsubd : sr.extent ⊆ acc.1.extent := hext ▸ h.extent ▸ hsub
  refine ⟨(acc.1.writeBack sr, acc.2 ++ res), by simp only [Disk.fillHole, hsr, hfill, hres], ?_⟩
  refine ⟨h.extent, RangeData.wf_writeBack h.wf hwf hsubd, fun l hl => ?_, fun l => ?_,
    fun r hr => ?_⟩
  · have hmem : (∃ h' ∈ hs ++ [sub], l ∈ h') ↔ (∃ h' ∈ hs, l ∈ h') ∨ l ∈ sub := by
      simp [or_and_right, exists_or]
    simp only [RangeData.block_writeBack h.wf hwf hsubd (h.extent ▸ hl), hext, h.block l hl, hmem]
    by_cases hls : l ∈ sub
    · rw [if_pos hls, hblk l hls, RangeData.block_subRange hsr hls, h.block l hl,
        if_pos (Or.inr hls)]
      split_ifs <;> cases oc.lookup lz l <;> rfl
    · simp only [hls, if_false, or_false]
  · have e1 : (∃ r ∈ acc.2 ++ res, l ∈ r) ↔ (∃ r ∈ acc.2, l ∈ r) ∨ ∃ r ∈ res, l ∈ r := by
      simp [or_and_right, exists_or]
    have e2 : (∃ h' ∈ hs ++ [sub], l ∈ h') ↔ (∃ h' ∈ hs, l ∈ h') ∨ l ∈ sub := by
      simp [or_and_right, exists_or]
    rw [e1, e2, h.holes l, hrcov l]
    simp only [Option.not_isSome_iff_eq_none]
    exact ⟨fun h' => h'.elim (fun ⟨a, b⟩ => ⟨.inl a, b⟩) (fun ⟨a, b⟩ => ⟨.inr a, b⟩),
      fun ⟨a, b⟩ => a.elim (fun a => .inl ⟨a, b⟩) (fun a => .inr ⟨a, b⟩)⟩
  · rcases List.mem_append.mp hr with hr | hr
    · exact h.sub r hr
    · exact Extent.subset_trans (hrsub r hr) hsub

/-- Filling holes within a well-formed range from a well-formed creator succeeds. -/
theorem prevFilled_foldlM {lz : Lz4} {oc : SegmentCreator} (hoc : oc.Wf lz) {data : RangeData}
    (hd : data.Wf) (hs : List Extent) (hsub : ∀ h ∈ hs, h ⊆ data.extent) :
    ∃ acc, hs.foldlM (Disk.fillHole lz oc) (data, []) = .ok acc ∧ PrevFilled lz oc data hs acc := by
  induction hs using List.reverseRecOn with
  | nil => exact ⟨(data, []), rfl, rfl, hd, fun l _ => by simp, by simp, by simp⟩
  | append_singleton hs h ih =>
    obtain ⟨acc, hacc, hinv⟩ := ih fun h' hh => hsub h' (List.mem_append_left _ hh)
    obtain ⟨acc', hacc', hinv'⟩ := hinv.fillHole hoc (hsub h (List.mem_append_right _ (List.mem_singleton_self _)))
    refine ⟨acc', ?_, hinv'⟩
    rw [List.foldlM_append, hacc, ok_bind, List.foldlM_cons, hacc', ok_bind]
    rfl

/-- What the write caches leave of a read of `rng`: a well-formed range over it, holding at each
block what the creators hold there or zeros, and holes within it that are exactly the blocks
neither creator holds. -/
structure Filled (rng : Extent) (look : ℕ → Option Block) (data : RangeData)
    (remaining : List Extent) : Prop where
  extent : data.extent = rng
  wf : data.Wf
  block : ∀ l ∈ rng, data.block l = (look l).getD emptyBlock
  holes : ∀ l, (∃ h ∈ remaining, l ∈ h) ↔ l ∈ rng ∧ look l = none
  sub : ∀ h ∈ remaining, h ⊆ rng

/-- The write caches fill a read from two well-formed creators: with a current creator and a
well-formed previous one, if any, `fillFromWriteCache` succeeds on a zeroed range, and what it
leaves is `Filled` by `cacheLookup`. -/
theorem fillFromWriteCache_spec {lz : Lz4} {d : Disk} {oc : SegmentCreator}
    (hcur : d.curOC = some oc) (hoc : oc.Wf lz) (hprev : ∀ p, d.prevCache = some p → p.Wf lz)
    (rng : Extent) :
    ∃ data holes, d.fillFromWriteCache lz (RangeData.new rng) = .ok (data, holes) ∧
      Filled rng (d.cacheLookup lz) data holes := by
  obtain ⟨data, used, hfill, hext, hwf, hblk, hcov, hpos⟩ :=
    SegmentCreator.fillExtent_spec hoc (RangeData.wf_new rng)
  obtain ⟨holes, hholes, hhcov, hhsub⟩ := holesLeft_spec hcov hpos
  have hlook : ∀ l, d.cacheLookup lz l = match oc.lookup lz l with
      | some b => some b
      | none => d.prevCache.bind fun p => p.lookup lz l := fun l => by
    simp only [cacheLookup, hcur, Option.some_bind]
  have hnew : ∀ l ∈ rng, (RangeData.new rng).block l = emptyBlock := fun l hl =>
    RangeData.block_new hl
  replace hext : data.extent = rng := hext
  replace hhcov : ∀ l, (∃ h ∈ holes, l ∈ h) ↔ l ∈ rng ∧ ¬(oc.lookup lz l).isSome := hhcov
  replace hhsub : ∀ h ∈ holes, h ⊆ rng := hhsub
  replace hholes : holesLeft data.extent used = some holes := hext ▸ hholes
  simp only [fillFromWriteCache, hcur, hfill, hholes, fillingFromPrevWriteCache]
  cases hp : d.prevCache with
  | none =>
    refine ⟨data, holes, rfl, hext, hwf, fun l hl => ?_, fun l => ?_, hhsub⟩
    · rw [hblk l hl, hnew l hl, hlook, hp]
      cases oc.lookup lz l <;> rfl
    · rw [hhcov, hlook, hp]
      cases oc.lookup lz l <;> simp
  | some p =>
    have hsub' : ∀ h ∈ holes, h ⊆ data.extent := hext ▸ hhsub
    obtain ⟨acc, hacc, hinv⟩ := prevFilled_foldlM (hprev p hp) hwf holes hsub'
    refine ⟨acc.1, acc.2, hacc, hinv.extent.trans hext, hinv.wf, fun l hl => ?_, fun l => ?_,
      fun h hh => hext ▸ hinv.sub h hh⟩
    · rw [hinv.block l (hext ▸ hl), hblk l hl, hnew l hl, hlook, hp]
      cases hc : oc.lookup lz l with
      | none => rw [if_pos ((hhcov l).mpr ⟨hl, by simp [hc]⟩)]; rfl
      | some b => rw [if_neg fun h' => by simpa [hc] using ((hhcov l).mp h').2]
    · rw [hinv.holes, hhcov, hlook, hp]
      cases oc.lookup lz l <;> simp

/-! ## Read requests, proved -/

/-- Every request reads an entry with bytes, for a non-empty list of holes each related to it by
`P`. -/
def Sound (P : PartialExtent → Extent → Prop) (reqs : List ReadRequest) : Prop :=
  ∀ r ∈ reqs, r.pe.size ≠ 0 ∧ r.extents ≠ [] ∧ ∀ x ∈ r.extents, P r.pe x

/-- Some request reads `pe` for hole `h`. -/
def Serves (reqs : List ReadRequest) (pe : PartialExtent) (h : Extent) : Prop :=
  ∃ r ∈ reqs, r.pe = pe ∧ h ∈ r.extents

/-- What `addRequest` can do: leave the requests, extend the last one, which reads `pe`, with the
hole, or add a request for `pe` and the hole. -/
theorem addRequest_cases (h : Extent) (reqs : List ReadRequest) (pe : PartialExtent) :
    (addRequest h reqs pe = reqs ∧ pe.size = 0) ∨
    (pe.size ≠ 0 ∧ ∃ last, reqs = reqs.dropLast ++ [last] ∧ last.pe = pe ∧
      addRequest h reqs pe = reqs.dropLast ++ [{ last with extents := last.extents ++ [h] }]) ∨
    (pe.size ≠ 0 ∧ addRequest h reqs pe = reqs ++ [⟨pe, [h]⟩]) := by
  unfold addRequest
  split_ifs with hs
  · exact .inl ⟨rfl, hs⟩
  · right
    split
    · rename_i last hlast
      split_ifs with hpe
      · exact .inl ⟨hs, last, (List.dropLast_append_getLast? _ hlast).symm, hpe, rfl⟩
      · exact .inr ⟨hs, rfl⟩
    · exact .inr ⟨hs, rfl⟩

/-- One entry added keeps every request sound, given the hole is related to it. -/
theorem Sound.addRequest {P : PartialExtent → Extent → Prop} {reqs : List ReadRequest}
    (hs : Sound P reqs) {h : Extent} {pe : PartialExtent} (hP : P pe h) :
    Sound P (addRequest h reqs pe) := by
  rcases addRequest_cases h reqs pe with ⟨heq, -⟩ | ⟨hsz, last, hsplit, hpe, heq⟩ | ⟨hsz, heq⟩
  · rwa [heq]
  · have hlast : last ∈ reqs := hsplit ▸ List.mem_append_right _ (List.mem_singleton_self _)
    rw [heq]
    intro r hr
    rcases List.mem_append.mp hr with hr | hr
    · exact hs r (List.mem_of_mem_dropLast hr)
    · obtain ⟨h1, -, h3⟩ := hs last hlast
      rw [List.mem_singleton.mp hr]
      refine ⟨h1, by simp, fun x hx => ?_⟩
      rcases List.mem_append.mp hx with hx | hx
      · exact h3 x hx
      · rw [List.mem_singleton.mp hx]; exact hpe ▸ hP
  · rw [heq]
    intro r hr
    rcases List.mem_append.mp hr with hr | hr
    · exact hs r hr
    · rw [List.mem_singleton.mp hr]
      exact ⟨hsz, by simp, fun x hx => (List.mem_singleton.mp hx) ▸ hP⟩

/-- One entry added keeps every request it served, and serves itself for the hole if it has
bytes. -/
theorem serves_addRequest (h : Extent) (reqs : List ReadRequest) (pe : PartialExtent) :
    (∀ pe' h', Serves reqs pe' h' → Serves (addRequest h reqs pe) pe' h') ∧
      (pe.size ≠ 0 → Serves (addRequest h reqs pe) pe h) := by
  rcases addRequest_cases h reqs pe with ⟨heq, hsz⟩ | ⟨hsz, last, hsplit, hpe, heq⟩ | ⟨hsz, heq⟩
  · rw [heq]; exact ⟨fun _ _ hs => hs, fun h' => absurd hsz h'⟩
  · rw [heq]
    refine ⟨fun pe' h' ⟨r, hr, hrpe, hrh⟩ => ?_, fun _ => ⟨_, List.mem_append_right _
      (List.mem_singleton_self _), hpe, List.mem_append_right _ (List.mem_singleton_self _)⟩⟩
    rw [hsplit] at hr
    rcases List.mem_append.mp hr with hr | hr
    · exact ⟨r, List.mem_append_left _ hr, hrpe, hrh⟩
    · rw [List.mem_singleton.mp hr] at hrpe hrh
      exact ⟨_, List.mem_append_right _ (List.mem_singleton_self _), hrpe,
        List.mem_append_left _ hrh⟩
  · rw [heq]
    exact ⟨fun pe' h' ⟨r, hr, hrpe, hrh⟩ => ⟨r, List.mem_append_left _ hr, hrpe, hrh⟩,
      fun _ => ⟨_, List.mem_append_right _ (List.mem_singleton_self _), rfl,
        List.mem_singleton_self _⟩⟩

/-- The entries of one hole added in turn: sound requests stay sound, what was served stays
served, and each entry with bytes is served for the hole. -/
theorem foldl_addRequest_spec {P : PartialExtent → Extent → Prop} (h : Extent)
    (pes : List PartialExtent) (hP : ∀ pe ∈ pes, P pe h) (reqs : List ReadRequest)
    (hs : Sound P reqs) :
    Sound P (pes.foldl (addRequest h) reqs) ∧
      (∀ pe' h', Serves reqs pe' h' → Serves (pes.foldl (addRequest h) reqs) pe' h') ∧
      ∀ pe ∈ pes, pe.size ≠ 0 → Serves (pes.foldl (addRequest h) reqs) pe h := by
  induction pes generalizing reqs with
  | nil => exact ⟨hs, fun _ _ h => h, by simp⟩
  | cons pe pes ih =>
    obtain ⟨hs', hkeep, hnew⟩ := ih (fun pe' hpe' => hP pe' (List.mem_cons_of_mem _ hpe'))
      _ (hs.addRequest (hP pe (List.mem_cons_self _ _)))
    obtain ⟨hkeep₁, hnew₁⟩ := serves_addRequest h reqs pe
    refine ⟨hs', fun pe' h' hser => hkeep _ _ (hkeep₁ _ _ hser), fun pe' hpe' hsz => ?_⟩
    rcases List.mem_cons.mp hpe' with rfl | hpe'
    · exact hkeep _ _ (hnew₁ hsz)
    · exact hnew pe' hpe' hsz

/-- The read requests are sound: each reads an entry with bytes that `Resolve` returned for each
of its holes, which are among those left. And every entry with bytes that `Resolve` returns for a
hole is read for it. -/
theorem readRequests_spec (m : ExtentMap) (remaining : List Extent) :
    Sound (fun pe x => x ∈ remaining ∧ pe ∈ m.resolve x) (readRequests m remaining) ∧
      ∀ h ∈ remaining, ∀ pe ∈ m.resolve h, pe.size ≠ 0 → Serves (readRequests m remaining) pe h := by
  suffices H : ∀ hs : List Extent, (∀ h ∈ hs, h ∈ remaining) → ∀ reqs,
      Sound (fun pe x => x ∈ remaining ∧ pe ∈ m.resolve x) reqs →
      let r := hs.foldl (fun reqs h => (m.resolve h).foldl (addRequest h) reqs) reqs
      Sound (fun pe x => x ∈ remaining ∧ pe ∈ m.resolve x) r ∧
        ∀ h ∈ hs, ∀ pe ∈ m.resolve h, pe.size ≠ 0 → Serves r pe h from
    H remaining (fun _ h => h) [] (by simp [Sound])
  intro hs
  induction hs using List.reverseRecOn with
  | nil => exact fun _ reqs hs => ⟨hs, by simp⟩
  | append_singleton hs h ih =>
    intro hrem reqs hsound
    obtain ⟨hs₁, hser₁⟩ := ih (fun h' hh => hrem h' (List.mem_append_left _ hh)) reqs hsound
    have hh : h ∈ remaining := hrem h (List.mem_append_right _ (List.mem_singleton_self _))
    obtain ⟨hs₂, hkeep, hnew⟩ := foldl_addRequest_spec h (m.resolve h) (fun pe hpe => ⟨hh, hpe⟩) _ hs₁
    simp only [List.foldl_append, List.foldl_cons, List.foldl_nil]
    refine ⟨hs₂, fun h' hh' pe hpe hsz => ?_⟩
    rcases List.mem_append.mp hh' with hh' | hh'
    · exact hkeep _ _ (hser₁ h' hh' pe hpe hsz)
    · rw [List.mem_singleton.mp hh'] at hpe ⊢
      exact hnew pe hpe hsz

/-! ## A read changes only the caches -/

/-- Fetching an entry changes only the caches. -/
theorem fetchExtent_caches {io : SegmentReads} {d : Disk} {pe : PartialExtent}
    {raw : Option (List UInt8)} {d' : Disk} (h : fetchExtent io d pe = .ok (raw, d')) :
    ∃ c o, d' = { d with extentCache := c, openSegments := o } := by
  unfold fetchExtent at h
  split at h
  · cases h; exact ⟨_, _, rfl⟩
  · split at h
    split_ifs at h
    all_goals
      split at h
      · cases h; exact ⟨_, _, rfl⟩
      · split_ifs at h
        cases h; exact ⟨_, _, rfl⟩

/-- Reading an entry changes only the caches, whatever the store does. -/
theorem readPartialExtent_caches {lz : Lz4} {io : SegmentReads} {d : Disk} {pe : PartialExtent}
    {rngs : List Extent} {dest dest' : RangeData} {d' : Disk}
    (h : readPartialExtent lz io d pe rngs dest = .ok (dest', d')) :
    ∃ c o, d' = { d with extentCache := c, openSegments := o } := by
  obtain ⟨⟨raw, d₁⟩, hf, h⟩ := bind_eq_ok.mp h
  obtain ⟨c, o, rfl⟩ := fetchExtent_caches hf
  cases raw with
  | none => cases h; exact ⟨c, o, rfl⟩
  | some raw =>
    obtain ⟨cooked, -, h⟩ := bind_eq_ok.mp h
    obtain ⟨dest'', -, h⟩ := bind_eq_ok.mp h
    cases h; exact ⟨c, o, rfl⟩

/-- A whole read changes only the caches, whatever the store does. -/
theorem readExtent_caches {lz : Lz4} {io : SegmentReads} {d : Disk} {rng : Extent}
    {data : RangeData} {d' : Disk} (h : readExtent lz io d rng = .ok (data, d')) :
    ∃ c o, d' = { d with extentCache := c, openSegments := o } := by
  obtain ⟨⟨data₀, remaining⟩, -, h⟩ := bind_eq_ok.mp h
  by_cases hrem : remaining = []
  · simp only [hrem, if_true, pure, Except.pure, Except.ok.injEq, Prod.mk.injEq] at h
    exact ⟨_, _, h.2.symm⟩
  simp only [hrem, if_false] at h
  -- Each request's read keeps the disk's other fields.
  suffices hloop : ∀ (rs : List ReadRequest) (data₁ : RangeData) c o,
      rs.foldlM (fun (acc : RangeData × Disk) o =>
        readPartialExtent lz io acc.2 o.pe o.extents acc.1)
        (data₁, { d with extentCache := c, openSegments := o }) = .ok (data, d') →
      ∃ c o, d' = { d with extentCache := c, openSegments := o } from
    hloop _ data₀ d.extentCache d.openSegments h
  intro rs
  induction rs with
  | nil =>
    intro data₁ c o hf
    cases hf
    exact ⟨c, o, rfl⟩
  | cons r rs ih =>
    intro data₁ c o hf
    obtain ⟨⟨data₂, d₂⟩, h₂, hrest⟩ := bind_eq_ok.mp hf
    obtain ⟨c₂, o₂, rfl⟩ := readPartialExtent_caches h₂
    exact ih data₂ c₂ o₂ hrest

/-! ## Reading one entry, proved -/

/-- The bytes a location's segment holds for it, if the segment is stored. -/
def storedBytes (d : Disk) (loc : ExtentLocation) : Option (List UInt8) :=
  (d.objects loc.segment).map fun obj => bytesAt obj loc.offset loc.size

/-- The extent cache `c` agrees with the store: what it holds for a location is the location's
bytes in its segment, when the segment is stored. -/
def CacheOk (d : Disk) (c : ExtentCache) : Prop :=
  ∀ loc raw, c.readExtent loc = some raw → ∀ obj, d.objects loc.segment = some obj →
    raw = bytesAt obj loc.offset loc.size

/-- The extent cache `c'` holds nothing that `c` did not, but bytes of stored segments. -/
def CacheGrows (d : Disk) (c c' : ExtentCache) : Prop :=
  ∀ loc, (c'.readExtent loc).isSome → (c.readExtent loc).isSome ∨ (d.objects loc.segment).isSome

theorem CacheGrows.trans {d : Disk} {c₁ c₂ c₃ : ExtentCache} (h₁ : CacheGrows d c₁ c₂)
    (h₂ : CacheGrows d c₂ c₃) : CacheGrows d c₁ c₃ := fun loc h =>
  (h₂ loc h).elim (h₁ loc) .inr

/-- What a read relies on: a current creator, well-formed creators, a well-formed map, every
entry with bytes stored, opening and reading back in full and decoding to its full extent's
bytes, and an extent cache that agrees with the store. -/
structure ReadContract (lz : Lz4) (io : SegmentReads) (d : Disk) : Prop where
  cur : ∃ oc, d.curOC = some oc ∧ oc.Wf lz
  prev : ∀ p, d.prevCache = some p → p.Wf lz
  map : d.lba2pba.Wf
  stored : ∀ x ∈ d.lba2pba.entries, x.size ≠ 0 → ∃ raw,
    d.storedBytes x.toExtentLocation = some raw ∧ io.openSegment x.segment = true ∧
    io.readAt x.segment x.offset x.size = some raw ∧ raw.length = x.size ∧
    ∃ cooked, decodeExtent lz x.toExtentLocation raw = .ok cooked ∧
      cooked.length = x.extent.blocks * BlockSize
  cache : CacheOk d d.extentCache

/-- A read changes only the caches, so a contract with an agreeing extent cache carries over. -/
theorem ReadContract.withCaches {lz : Lz4} {io : SegmentReads} {d : Disk}
    (hc : ReadContract lz io d) {c : ExtentCache} (hcache : CacheOk d c) (o : List SegmentId) :
    ReadContract lz io { d with extentCache := c, openSegments := o } :=
  ⟨hc.cur, hc.prev, hc.map, hc.stored, hcache⟩

/-- The stored block of an entry whose bytes are stored and decode. -/
theorem storedBlock_eq {lz : Lz4} {d : Disk} {loc : ExtentLocation} (hsz : loc.size ≠ 0)
    {raw cooked : List UInt8} (hraw : d.storedBytes loc = some raw)
    (hdec : decodeExtent lz loc raw = .ok cooked) (l : ℕ) :
    storedBlock lz d.objects loc l = (⟨loc.extent, cooked⟩ : RangeData).block l := by
  obtain ⟨obj, hobj, rfl⟩ := Option.map_eq_some'.mp hraw
  simp only [storedBlock, hsz, if_false, hobj, hdec]

/-- Fetching an entry with bytes under the contract returns its stored bytes, and changes only
the caches; the extent cache keeps agreeing with the store and gains only stored bytes. -/
theorem fetchExtent_spec {lz : Lz4} {io : SegmentReads} {d : Disk} (hc : ReadContract lz io d)
    {x : PartialExtent} (hx : x ∈ d.lba2pba.entries) (hsz : x.size ≠ 0) {pe : PartialExtent}
    (hpe : pe.toExtentLocation = x.toExtentLocation) :
    ∃ raw c o, d.storedBytes x.toExtentLocation = some raw ∧
      fetchExtent io d pe = .ok (some raw, { d with extentCache := c, openSegments := o }) ∧
      CacheOk d c ∧ CacheGrows d d.extentCache c := by
  obtain ⟨raw, hraw, hopen, hread, hlen, -⟩ := hc.stored x hx hsz
  obtain ⟨obj, hobj, hrawobj⟩ := Option.map_eq_some'.mp hraw
  have hseg : pe.segment = x.segment := congrArg ExtentLocation.segment hpe
  have hoff : pe.offset = x.offset := congrArg (·.offset) hpe
  have hpsz : pe.size = x.size := congrArg (·.size) hpe
  unfold fetchExtent
  cases hcache : d.extentCache.readExtent pe.toExtentLocation with
  | some raw' =>
    have := hc.cache _ raw' hcache obj (hseg ▸ hobj)
    rw [hoff, hpsz, hrawobj] at this
    subst this
    exact ⟨raw', d.extentCache, d.openSegments, hraw, rfl, hc.cache, fun _ h => .inl h⟩
  | none =>
    obtain ⟨hit, lru⟩ := lruGet d.openSegments pe.segment
    refine ⟨raw, d.extentCache.writeExtent pe.toExtentLocation raw,
      if hit then lru else lruAdd lru pe.segment, hraw, ?_, fun loc raw' hloc obj' hobj' => ?_,
      fun loc hloc => ?_⟩
    · simp only [hseg, hopen, Bool.not_true, Bool.and_false, Bool.false_eq_true, if_false, hoff,
        hpsz, hread, hlen, ne_eq, not_true_eq_false]
    · rw [ExtentCache.readExtent_writeExtent] at hloc
      split_ifs at hloc with hkey
      · cases hloc
        simp only [ExtentCache.key, Prod.mk.injEq] at hkey
        obtain ⟨h1, h2, h3⟩ := hkey
        rw [h1, hseg, hobj, Option.some.injEq] at hobj'
        rw [← hrawobj, h2, h3, hoff, hpsz, hobj']
      · exact hc.cache loc raw' hloc obj' hobj'
    · rw [ExtentCache.readExtent_writeExtent] at hloc
      split_ifs at hloc with hkey
      · simp only [ExtentCache.key, Prod.mk.injEq] at hkey
        exact .inr (by rw [hkey.1, hseg, hobj]; rfl)
      · exact .inl hloc

/-- One hole copied: the entry's live blocks, within the hole and the destination, are copied
from the source and the other blocks kept. -/
theorem copyHole_spec {pe : PartialExtent} (hpos : 0 < pe.usable.blocks) {src dest : RangeData}
    {x : Extent} (hx : pe.usable ⊆ x) (hxd : x ⊆ dest.extent) (hsrc : src.Wf)
    (hsrcext : pe.usable ⊆ src.extent) (hd : dest.Wf) :
    ∃ dest', copyHole pe src dest x = .ok dest' ∧ dest'.extent = dest.extent ∧ dest'.Wf ∧
      ∀ l ∈ dest.extent, dest'.block l = if l ∈ pe.usable then src.block l else dest.block l := by
  have hdsub := RangeData.subRange_of_subset (Extent.subset_trans hx hxd)
  have hssub := RangeData.subRange_of_subset hsrcext
  have hdwf := RangeData.wf_subRange hd hdsub
  have hswf := RangeData.wf_subRange hsrc hssub
  -- Both views are of the entry's live blocks, so the copy is the source's view.
  have hcopy : goCopy (bytesAt dest.data ((pe.usable.lba - dest.extent.lba) * BlockSize)
      (pe.usable.blocks * BlockSize)) (bytesAt src.data ((pe.usable.lba - src.extent.lba) *
        BlockSize) (pe.usable.blocks * BlockSize)) = bytesAt src.data ((pe.usable.lba -
          src.extent.lba) * BlockSize) (pe.usable.blocks * BlockSize) :=
    goCopy_of_length_eq (hswf.trans hdwf.symm)
  have hv : pe.usable ⊆ dest.extent := Extent.subset_trans hx hxd
  refine ⟨dest.writeBack ⟨pe.usable, bytesAt src.data ((pe.usable.lba - src.extent.lba) *
      BlockSize) (pe.usable.blocks * BlockSize)⟩,
    by simp only [copyHole, Extent.clamp_of_subset hpos hx, hdsub, hssub, hcopy], rfl,
    RangeData.wf_writeBack hd hswf hv, fun l hl => ?_⟩
  rw [RangeData.block_writeBack hd hswf hv hl]
  split_ifs with hlu
  · exact RangeData.block_subRange hssub hlu
  · rfl

/-- The holes of a request copied in turn: the entry's live blocks copied, the others kept. -/
theorem foldlM_copyHole_spec {pe : PartialExtent} (hpos : 0 < pe.usable.blocks)
    {src : RangeData} (hsrc : src.Wf) (hsrcext : pe.usable ⊆ src.extent) (xs : List Extent)
    (hxs : xs ≠ []) {dest : RangeData} (hxd : ∀ x ∈ xs, pe.usable ⊆ x ∧ x ⊆ dest.extent)
    (hd : dest.Wf) :
    ∃ dest', xs.foldlM (copyHole pe src) dest = .ok dest' ∧ dest'.extent = dest.extent ∧
      dest'.Wf ∧
      ∀ l ∈ dest.extent, dest'.block l = if l ∈ pe.usable then src.block l else dest.block l := by
  induction xs generalizing dest with
  | nil => exact absurd rfl hxs
  | cons x xs ih =>
    obtain ⟨hx, hxd'⟩ := hxd x (List.mem_cons_self _ _)
    obtain ⟨d₁, h₁, he₁, hw₁, hb₁⟩ := copyHole_spec hpos hx hxd' hsrc hsrcext hd
    rw [List.foldlM_cons, h₁, ok_bind]
    by_cases hne : xs = []
    · subst hne
      exact ⟨d₁, rfl, he₁, hw₁, hb₁⟩
    · obtain ⟨d₂, h₂, he₂, hw₂, hb₂⟩ := ih hne
        (fun y hy => he₁ ▸ hxd y (List.mem_cons_of_mem _ hy)) hw₁
      refine ⟨d₂, h₂, he₂.trans he₁, hw₂, fun l hl => ?_⟩
      rw [hb₂ l (he₁ ▸ hl), hb₁ l hl]
      split_ifs <;> rfl

/-- Reading an entry with bytes under the contract, for holes that each contain the clamped
entry: its live blocks are set to the blocks its entry of the map stores, the others kept; only
the caches change, and the extent cache keeps agreeing with the store. -/
theorem readPartialExtent_spec {lz : Lz4} {io : SegmentReads} {d : Disk}
    (hc : ReadContract lz io d) {x : PartialExtent} (hx : x ∈ d.lba2pba.entries)
    {pe : PartialExtent} (hpe : pe.toExtentLocation = x.toExtentLocation) (hsz : x.size ≠ 0)
    (hsub : pe.usable ⊆ x.usable) (hpos : 0 < pe.usable.blocks) {xs : List Extent}
    (hxs : xs ≠ []) {dest : RangeData} (hxd : ∀ y ∈ xs, pe.usable ⊆ y ∧ y ⊆ dest.extent)
    (hd : dest.Wf) :
    ∃ dest' c o, d.readPartialExtent lz io pe xs dest =
        .ok (dest', { d with extentCache := c, openSegments := o }) ∧ CacheOk d c ∧
      CacheGrows d d.extentCache c ∧ dest'.extent = dest.extent ∧ dest'.Wf ∧
      ∀ l ∈ dest.extent, dest'.block l =
        if l ∈ pe.usable then storedBlock lz d.objects x.toExtentLocation l else dest.block l := by
  obtain ⟨raw, c, o, hraw, hfetch, hcache, hgrow⟩ := fetchExtent_spec hc hx hsz hpe
  obtain ⟨raw', hraw', -, -, -, cooked, hdec, hlen⟩ := hc.stored x hx hsz
  rw [hraw] at hraw'
  cases hraw'
  have hext : pe.extent = x.extent := congrArg (·.extent) hpe
  have hsrcext : pe.usable ⊆ (⟨pe.extent, cooked⟩ : RangeData).extent :=
    Extent.subset_trans hsub (hext ▸ hc.map.sub x hx)
  obtain ⟨dest', hfold, he, hw, hb⟩ := foldlM_copyHole_spec hpos
    (show RangeData.Wf ⟨pe.extent, cooked⟩ from hext ▸ hlen) hsrcext xs hxs hxd hd
  have hdec' : decodeExtent lz pe.toExtentLocation raw = .ok cooked := hpe ▸ hdec
  refine ⟨dest', c, o, ?_, hcache, hgrow, he, hw, fun l hl => ?_⟩
  · simp only [readPartialExtent, hfetch, ok_bind, hdec', hfold]
    rfl
  · rw [hb l hl, storedBlock_eq hsz hraw hdec, hext]

/-! ## A whole read -/

/-- A block in a hole reads from its map entry: neither creator holds it. -/
theorem view_of_hole {lz : Lz4} {d : Disk} {rng : Extent} {data : RangeData}
    {remaining : List Extent} (hF : Filled rng (d.cacheLookup lz) data remaining)
    (hm : d.lba2pba.Wf) {x : Extent} (hx : x ∈ remaining) {l : ℕ} (hl : l ∈ x)
    {e : PartialExtent} (he : e ∈ d.lba2pba.entries) (hle : l ∈ e.usable) :
    d.view lz l = storedBlock lz d.objects e.toExtentLocation l := by
  have hnone : d.cacheLookup lz l = none := ((hF.holes l).mp ⟨x, hx, hl⟩).2
  have hfind : d.lba2pba.find l = some e.toExtentLocation := hm.find_eq_some.mpr ⟨e, he, hle, rfl⟩
  simp only [view, hnone, hfind]

/-- A block of the range that no request reads holds what the write caches left there, which is
the view: either a creator holds it, or its map entry, if any, has no bytes. -/
theorem view_of_unread {lz : Lz4} {d : Disk} {rng : Extent} {data : RangeData}
    {remaining : List Extent} (hF : Filled rng (d.cacheLookup lz) data remaining)
    (hm : d.lba2pba.Wf) {reqs : List ReadRequest}
    (hserve : ∀ h ∈ remaining, ∀ pe ∈ d.lba2pba.resolve h, pe.size ≠ 0 → Serves reqs pe h)
    {l : ℕ} (hl : l ∈ rng) (hnot : ¬∃ r ∈ reqs, l ∈ r.pe.usable) : data.block l = d.view lz l := by
  rw [hF.block l hl]
  cases hlook : d.cacheLookup lz l with
  | some b => simp only [view, hlook, Option.getD_some]
  | none =>
    obtain ⟨h, hh, hlh⟩ := (hF.holes l).mpr ⟨hl, hlook⟩
    cases hfind : d.lba2pba.find l with
    | none => simp only [view, hlook, hfind, Option.getD_none]
    | some loc =>
      obtain ⟨e, he, hle, rfl⟩ := hm.find_eq_some.mp hfind
      obtain ⟨c, hc⟩ := Option.ne_none_iff_exists'.mp fun h' =>
        Extent.clamp_eq_none.mp h' l hle hlh
      have hres : { e with usable := c } ∈ d.lba2pba.resolve h :=
        ExtentMap.mem_resolve.mpr ⟨e, he, c, hc, rfl⟩
      by_cases hsz : e.size = 0
      · simp only [view, hlook, hfind, storedBlock, hsz, if_true, Option.getD_none]
      · obtain ⟨r, hr, hrpe, -⟩ := hserve h hh _ hres hsz
        exact absurd ⟨r, hr, hrpe ▸ (Extent.mem_clamp hc l).mpr ⟨hle, hlh⟩⟩ hnot

/-- The requests read in turn under the contract: each block a request reads is set to the
view, the others kept, and only the caches change. -/
theorem foldlM_readPartialExtent_spec {lz : Lz4} {io : SegmentReads} {d : Disk}
    (hc : ReadContract lz io d) {rng : Extent} {data : RangeData} {remaining : List Extent}
    (hF : Filled rng (d.cacheLookup lz) data remaining) (rs : List ReadRequest)
    (hrs : Sound (fun pe x => x ∈ remaining ∧ pe ∈ d.lba2pba.resolve x) rs) :
    ∃ data' c o, rs.foldlM (fun (acc : RangeData × Disk) o =>
        readPartialExtent lz io acc.2 o.pe o.extents acc.1) (data, d) =
        .ok (data', { d with extentCache := c, openSegments := o }) ∧ CacheOk d c ∧
      CacheGrows d d.extentCache c ∧ data'.extent = rng ∧ data'.Wf ∧
      ∀ l ∈ rng, data'.block l = if ∃ r ∈ rs, l ∈ r.pe.usable then d.view lz l else data.block l := by
  induction rs using List.reverseRecOn with
  | nil => exact ⟨data, d.extentCache, d.openSegments, rfl, hc.cache, fun _ h => .inl h,
      hF.extent, hF.wf, by simp⟩
  | append_singleton rs r ih =>
    obtain ⟨data₁, c₁, o₁, h₁, hc₁, hg₁, he₁, hw₁, hb₁⟩ :=
      ih fun r' hr' => hrs r' (List.mem_append_left _ hr')
    obtain ⟨hsz, hne, hxs⟩ := hrs r (List.mem_append_right _ (List.mem_singleton_self _))
    -- The request reads a clamp of an entry of the map, within each of its holes.
    obtain ⟨x₀, hx₀⟩ := List.exists_mem_of_ne_nil _ hne
    obtain ⟨e, he, c, hclamp, hpe⟩ := ExtentMap.mem_resolve.mp (hxs x₀ hx₀).2
    have hsub : ∀ x ∈ r.extents, r.pe.usable ⊆ x ∧ x ⊆ data₁.extent := fun x hx => by
      obtain ⟨e', -, c', hc', hpe'⟩ := ExtentMap.mem_resolve.mp (hxs x hx).2
      refine ⟨?_, he₁ ▸ hF.sub x (hxs x hx).1⟩
      rw [hpe']
      exact Extent.subset_of_mem (Extent.clamp_blocks_pos hc') fun l hl =>
        ((Extent.mem_clamp hc' l).mp hl).2
    have hcu : r.pe.usable = c := by rw [hpe]
    obtain ⟨data₂, c₂, o₂, h₂, hc₂, hg₂, he₂, hw₂, hb₂⟩ := readPartialExtent_spec
      (hc.withCaches hc₁ o₁) he (by rw [hpe]) (by rw [hpe] at hsz; exact hsz)
      (hcu ▸ Extent.subset_of_mem (Extent.clamp_blocks_pos hclamp) fun l hl =>
        ((Extent.mem_clamp hclamp l).mp hl).1)
      (hcu ▸ Extent.clamp_blocks_pos hclamp) hne hsub hw₁
    refine ⟨data₂, c₂, o₂, ?_, hc₂, hg₁.trans hg₂, he₂.trans he₁, hw₂, fun l hl => ?_⟩
    · rw [List.foldlM_append, h₁, ok_bind, List.foldlM_cons, h₂, ok_bind]
      rfl
    · rw [hb₂ l (he₁ ▸ hl), hb₁ l hl]
      have hmem : (∃ r' ∈ rs ++ [r], l ∈ r'.pe.usable) ↔
          (∃ r' ∈ rs, l ∈ r'.pe.usable) ∨ l ∈ r.pe.usable := by
        simp [or_and_right, exists_or]
      by_cases hlr : l ∈ r.pe.usable
      · rw [if_pos hlr, if_pos (hmem.mpr (.inr hlr))]
        exact (view_of_hole hF hc.map (hxs x₀ hx₀).1 ((hsub x₀ hx₀).1 |> fun h => Extent.mem_of_subset h hlr)
          he ((Extent.mem_clamp hclamp l).mp (hcu ▸ hlr)).1).symm
      · rw [if_neg hlr]
        simp only [hmem, hlr, or_false]

/-- A read under the contract succeeds with the view at every block of the range, and changes
only the caches, keeping the contract. -/
theorem readExtent_spec {lz : Lz4} {io : SegmentReads} {d : Disk} (hc : ReadContract lz io d)
    (rng : Extent) :
    ∃ data c o, d.readExtent lz io rng = .ok (data, { d with extentCache := c, openSegments := o }) ∧
      data.extent = rng ∧ data.Wf ∧ (∀ l ∈ rng, data.block l = d.view lz l) ∧
      ReadContract lz io { d with extentCache := c, openSegments := o } ∧
      CacheGrows d d.extentCache c := by
  obtain ⟨oc, hcur, hoc⟩ := hc.cur
  obtain ⟨data, remaining, hfill, hF⟩ := fillFromWriteCache_spec hcur hoc hc.prev rng
  by_cases hrem : remaining = []
  · refine ⟨data, d.extentCache, d.openSegments, ?_, hF.extent, hF.wf, fun l hl => ?_,
      hc.withCaches hc.cache _, fun _ h => .inl h⟩
    · simp only [readExtent, hfill, ok_bind, hrem, if_true]
      rfl
    · exact view_of_unread hF hc.map (show ∀ h ∈ remaining, ∀ pe ∈ d.lba2pba.resolve h,
        pe.size ≠ 0 → Serves [] pe h by simp [hrem]) hl (by simp)
  · obtain ⟨hsound, hserve⟩ := readRequests_spec d.lba2pba remaining
    obtain ⟨data', c, o, hfold, hcache, hgrow, he, hw, hb⟩ :=
      foldlM_readPartialExtent_spec hc hF _ hsound
    refine ⟨data', c, o, ?_, he, hw, fun l hl => ?_, hc.withCaches hcache o, hgrow⟩
    · simp only [readExtent, hfill, ok_bind, hrem, if_false]
      exact hfold
    · rw [hb l hl]
      split_ifs with hr
      · rfl
      · exact view_of_unread hF hc.map hserve hl hr

/-! ## A failed `ReadAt` -/

/-- A failed `ReadAt`, on a cache miss for a segment already open or that opens:
`readPartialExtent` returns no error and leaves the destination as it was. -/
theorem readPartialExtent_of_readAt_none {lz : Lz4} {io : SegmentReads} {d : Disk}
    {pe : PartialExtent} (hcache : d.extentCache.readExtent pe.toExtentLocation = none)
    (hopen : pe.segment ∈ d.openSegments ∨ io.openSegment pe.segment = true)
    (hread : io.readAt pe.segment pe.offset pe.size = none) (xs : List Extent)
    (dest : RangeData) : ∃ d', d.readPartialExtent lz io pe xs dest = .ok (dest, d') := by
  by_cases hin : pe.segment ∈ d.openSegments
  · exact ⟨_, by simp only [readPartialExtent, fetchExtent, hcache, lruGet, hin, if_true, hread,
      Bool.not_true, Bool.false_and, Bool.false_eq_true, ok_bind]; rfl⟩
  · have ho : io.openSegment pe.segment = true := hopen.resolve_left hin
    exact ⟨_, by simp only [readPartialExtent, fetchExtent, hcache, lruGet, hin, if_false, ho,
      hread, Bool.not_true, Bool.and_false, Bool.false_eq_true, ok_bind]; rfl⟩

/-- A store whose `ReadAt` always fails, as on a network error, while `OpenSegment` succeeds. -/
def failingReads : SegmentReads := ⟨fun _ => true, fun _ _ _ => none⟩

/-- A segment of an 8-byte header and one block of ones. -/
def onesSegment : List UInt8 := List.replicate 8 0 ++ List.replicate BlockSize 1

/-- A disk with empty creators whose extent map sends block 0 to the raw block at offset 8 of
segment 0, which is stored and open. -/
def readAtErrorDisk : Disk where
  curOC := some {}
  curSeq := 1
  prevCache := none
  lba2pba := ⟨[⟨⟨⟨⟨0, 1⟩, Uncompressed, BlockSize, BlockSize, 8⟩, 0⟩, ⟨0, 1⟩⟩]⟩
  s := {}
  extentCache := {}
  openSegments := [0]
  objects := fun _ => some onesSegment
  index := none

/-- When `ReadAt` fails, `ReadExtent` returns no error and zeros for a block that the extent map
holds in a stored segment, where the block is not zero. -/
theorem readExtent_zeros_on_readAt_error :
    ∃ data d', readAtErrorDisk.readExtent Lz4.never failingReads ⟨0, 1⟩ = .ok (data, d') ∧
      data.block 0 = emptyBlock ∧ readAtErrorDisk.view Lz4.never 0 ≠ emptyBlock :=
  ⟨RangeData.new ⟨0, 1⟩, _, rfl, RangeData.block_new (by decide), by decide⟩

end Disk

end Lsvd
