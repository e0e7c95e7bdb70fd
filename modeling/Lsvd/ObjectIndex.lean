import Lsvd.Basic

/-!
# The volume object index of `S3Access`

The index `volumes/<vol>/objects` is the concatenation of the sixteen-byte ids of the volume's
segments. `AppendToObjects` and `RemoveSegmentFromVolume` each list it (`ListSegments`, a GET),
compute a new list, and upload the whole index again (a PUT).

`AppendToObjects` uploads the list with the new id at the end (`appendToObjects_uploads`).
`RemoveSegmentFromVolume` calls `slices.DeleteFunc` but drops the slice it returns, and uploads
the slice it passed in, whose elements `DeleteFunc` has shifted and zeroed in place: the index it
uploads always has as many ids as before (`removeSegmentFromVolume_length`).

The two calls are not atomic. `IndexStep` splits each into its GET and its PUT, and
`runIndexSteps` runs any interleaving of the four. Whatever the interleaving, the index ends as
the call whose PUT comes last computed it from what its GET read (`interleaving_last_put_wins`),
so when the calls overlap, the update of the other is lost (`interleaving_loses_append`).
-/

namespace Lsvd

/-- The segment id whose bytes, big-endian, are `b` (sixteen of them in the index). -/
def SegmentId.ofBytes (b : List UInt8) : SegmentId :=
  ⟨getBE b % 2 ^ 128, Nat.mod_lt _ (by positivity)⟩

/-- An id read back from its bytes is itself. -/
@[simp]
theorem SegmentId.ofBytes_bytes (s : SegmentId) : SegmentId.ofBytes s.bytes = s := by
  have h : (256 : ℕ) ^ 16 = 2 ^ 128 := rfl
  ext
  simp [SegmentId.ofBytes, SegmentId.bytes, getBE_putBE, h, Nat.mod_eq_of_lt s.isLt]

@[simp]
theorem SegmentId.length_bytes (s : SegmentId) : s.bytes.length = 16 := length_putBE 16 _

/-- The index's bytes for a list of ids: `buf.Write(seg[:])` for each in turn. -/
def encodeSegments (segs : List SegmentId) : List UInt8 := (segs.map SegmentId.bytes).flatten

/-- Each id takes sixteen bytes of the index. -/
@[simp]
theorem length_encodeSegments (segs : List SegmentId) :
    (encodeSegments segs).length = 16 * segs.length := by
  induction segs with
  | nil => rfl
  | cons s segs ih =>
    simp only [encodeSegments, List.map_cons, List.flatten_cons, List.length_append,
      SegmentId.length_bytes, List.length_cons] at ih ⊢
    omega

/-- `ReadSegments`'s loop, with `fuel` bounding its turns: read sixteen bytes at a time into an
id until the input ends; an input that ends inside an id is an error. -/
def readSegmentsLoop : ℕ → List UInt8 → Option (List SegmentId)
  | _, [] => some []
  | 0, _ :: _ => none
  | fuel + 1, bs@(_ :: _) =>
    if bs.length < 16 then none
    else (readSegmentsLoop fuel (bs.drop 16)).map (SegmentId.ofBytes (bs.take 16) :: ·)

/-- Modelled from the spec: `ReadSegments`, the reading of the index as "concatenation of 16-byte
SegmentId ULID bytes, in creation order". -/
def readSegments (bs : List UInt8) : Option (List SegmentId) := readSegmentsLoop bs.length bs

/-- The index of a list reads back to the list. -/
theorem readSegments_encodeSegments (segs : List SegmentId) :
    readSegments (encodeSegments segs) = some segs := by
  suffices h : ∀ fuel, segs.length ≤ fuel → readSegmentsLoop fuel (encodeSegments segs) = some segs
    from h _ (by simp; omega)
  induction segs with
  | nil => intro fuel _; cases fuel <;> rfl
  | cons s segs ih =>
    intro fuel hf
    obtain ⟨fuel, rfl⟩ : ∃ f, fuel = f + 1 := ⟨fuel - 1, by simp at hf; omega⟩
    have hs : encodeSegments (s :: segs) = s.bytes ++ encodeSegments segs := rfl
    obtain ⟨b, bs, hb⟩ := List.exists_cons_of_length_pos (by simp : 0 < s.bytes.length)
    rw [hs, hb, List.cons_append, readSegmentsLoop, ← List.cons_append, ← hb,
      if_neg (by simp), List.drop_left' (SegmentId.length_bytes s),
      List.take_left' (SegmentId.length_bytes s), ih fuel (by simp at hf; omega)]
    simp

/-- `ListSegments(vol)`: an absent index is an empty list; a present one is read. -/
def listSegments (obj : Option (List UInt8)) : Option (List SegmentId) :=
  match obj with
  | none => some []
  | some bs => readSegments bs

/-- `slices.DeleteFunc(s, del)` (Go 1.22 on) as it leaves the slice `s` it was given: the elements
it keeps, in order, then zero values up to the original length. -/
def deleteFuncInPlace (s : List SegmentId) (del : SegmentId → Bool) : List SegmentId :=
  s.filter (fun x => !del x) ++ List.replicate (s.length - (s.filter (fun x => !del x)).length) 0

/-- The index that `AppendToObjects(vol, seg)` uploads after listing `segments`. -/
def appendToObjectsUpload (segments : List SegmentId) (seg : SegmentId) : List UInt8 :=
  encodeSegments (segments ++ [seg])

/-- The index that `RemoveSegmentFromVolume(vol, seg)` uploads after listing `segments`: the slice
it passed to `slices.DeleteFunc`, not the one `DeleteFunc` returned. -/
def removeSegmentFromVolumeUpload (segments : List SegmentId) (seg : SegmentId) : List UInt8 :=
  encodeSegments (deleteFuncInPlace segments (· = seg))

/-- `AppendToObjects(vol, seg)` run alone on the index object: the object it uploads, or `none`
when the listing fails. -/
def appendToObjects (obj : Option (List UInt8)) (seg : SegmentId) : Option (List UInt8) :=
  (listSegments obj).map (appendToObjectsUpload · seg)

/-- `RemoveSegmentFromVolume(vol, seg)` run alone on the index object. -/
def removeSegmentFromVolume (obj : Option (List UInt8)) (seg : SegmentId) :
    Option (List UInt8) :=
  (listSegments obj).map (removeSegmentFromVolumeUpload · seg)

/-- On an index that holds `segs`, `AppendToObjects` uploads the index of `segs` with `seg` at the
end. -/
theorem appendToObjects_uploads (segs : List SegmentId) (seg : SegmentId) :
    appendToObjects (some (encodeSegments segs)) seg = some (encodeSegments (segs ++ [seg])) := by
  simp [appendToObjects, listSegments, readSegments_encodeSegments, appendToObjectsUpload]

/-- On an index that holds `segs`, `RemoveSegmentFromVolume` uploads the other ids in order,
followed by one zero id for each occurrence of `seg`. -/
theorem removeSegmentFromVolume_uploads (segs : List SegmentId) (seg : SegmentId) :
    removeSegmentFromVolume (some (encodeSegments segs)) seg =
      some (encodeSegments (segs.filter (· ≠ seg) ++
        List.replicate (segs.length - (segs.filter (· ≠ seg)).length) 0)) := by
  simp [removeSegmentFromVolume, listSegments, readSegments_encodeSegments,
    removeSegmentFromVolumeUpload, deleteFuncInPlace]

/-- The index `AppendToObjects` uploads can be listed again. -/
theorem listSegments_appendToObjects {obj : Option (List UInt8)} {seg : SegmentId}
    {idx : List UInt8} (h : appendToObjects obj seg = some idx) :
    (listSegments (some idx)).isSome := by
  obtain ⟨segs, -, rfl⟩ := Option.map_eq_some'.mp h
  simp [listSegments, appendToObjectsUpload, readSegments_encodeSegments]

/-- The index `RemoveSegmentFromVolume` uploads can be listed again. -/
theorem listSegments_removeSegmentFromVolume {obj : Option (List UInt8)} {seg : SegmentId}
    {idx : List UInt8} (h : removeSegmentFromVolume obj seg = some idx) :
    (listSegments (some idx)).isSome := by
  obtain ⟨segs, -, rfl⟩ := Option.map_eq_some'.mp h
  simp [listSegments, removeSegmentFromVolumeUpload, readSegments_encodeSegments]

/-- `RemoveSegmentFromVolume` never shortens the index: what it uploads holds as many ids as it
read. -/
theorem removeSegmentFromVolume_length (segs : List SegmentId) (seg : SegmentId) :
    ((removeSegmentFromVolume (some (encodeSegments segs)) seg).map List.length) =
      some (16 * segs.length) := by
  have hle := List.length_filter_le (fun x => !decide (x = seg)) segs
  simp only [removeSegmentFromVolume, listSegments, readSegments_encodeSegments,
    removeSegmentFromVolumeUpload, deleteFuncInPlace, Option.map_some', length_encodeSegments,
    List.length_append, List.length_replicate]
  congr 1
  omega

/-- Removing segment `1` from an index that holds only it uploads the index of the zero id, not
an empty index. -/
theorem removeSegmentFromVolume_keeps_slot :
    removeSegmentFromVolume (some (encodeSegments [1])) 1 = some (encodeSegments [0]) ∧
      encodeSegments [0] ≠ encodeSegments ([1].filter (· ≠ 1)) := by
  decide

/-! ## Interleaved calls -/

/-- Where one call to `AppendToObjects` or `RemoveSegmentFromVolume` is: before its GET, between
its GET and its PUT with what `ListSegments` returned, or after its PUT. -/
inductive CallPc
  | start
  | listed (segments : Option (List SegmentId))
  | done
deriving DecidableEq, Repr

/-- The GET of a call: it lists the index as it is now. -/
def CallPc.get (index : Option (List UInt8)) : CallPc → CallPc
  | .start => .listed (listSegments index)
  | pc => pc

/-- The PUT of a call: it uploads what it computes from the list it read. A call whose listing
failed returns the error and uploads nothing. -/
def CallPc.put (upload : List SegmentId → List UInt8) (index : Option (List UInt8)) :
    CallPc → Option (List UInt8) × CallPc
  | .listed (some segs) => (some (upload segs), .done)
  | .listed none => (index, .done)
  | pc => (index, pc)

/-- The index object and where each of the two calls is. -/
structure IndexState where
  index : Option (List UInt8)
  remove : CallPc
  append : CallPc
deriving DecidableEq, Repr

/-- Both calls not yet started, on an index that holds `segs`. -/
def IndexState.init (segs : List SegmentId) : IndexState :=
  ⟨some (encodeSegments segs), .start, .start⟩

/-- The GET or the PUT of `RemoveSegmentFromVolume` or of `AppendToObjects`. -/
inductive IndexStep
  | removeGet
  | removePut
  | appendGet
  | appendPut
deriving DecidableEq, Repr

/-- One step of `RemoveSegmentFromVolume(vol, x)` or `AppendToObjects(vol, seg)`. -/
def IndexState.step (x seg : SegmentId) (st : IndexState) : IndexStep → IndexState
  | .removeGet => { st with remove := st.remove.get st.index }
  | .removePut =>
    let r := st.remove.put (removeSegmentFromVolumeUpload · x) st.index
    { st with index := r.1, remove := r.2 }
  | .appendGet => { st with append := st.append.get st.index }
  | .appendPut =>
    let r := st.append.put (appendToObjectsUpload · seg) st.index
    { st with index := r.1, append := r.2 }

/-- The steps run in order. -/
def runIndexSteps (x seg : SegmentId) (st : IndexState) (steps : List IndexStep) : IndexState :=
  steps.foldl (IndexState.step x seg) st

/-- The interleavings of two sequences of steps, each kept in its order: the first step of `xs`
goes after some prefix of `ys`, and the rest of `xs` interleaves with the rest of `ys`. -/
def shuffles {α : Type} : List α → List α → List (List α)
  | [], ys => [ys]
  | x :: xs, ys =>
    (List.range (ys.length + 1)).flatMap fun i =>
      (shuffles xs (ys.drop i)).map fun r => ys.take i ++ x :: r

/-- The orders of the four steps in which each call's GET comes before its PUT. -/
def interleavings : List (List IndexStep) :=
  shuffles [.removeGet, .removePut] [.appendGet, .appendPut]

/-- The six interleavings. -/
theorem interleavings_eq : interleavings =
    [[.removeGet, .removePut, .appendGet, .appendPut], [.removeGet, .appendGet, .removePut, .appendPut],
      [.removeGet, .appendGet, .appendPut, .removePut], [.appendGet, .removeGet, .removePut, .appendPut],
      [.appendGet, .removeGet, .appendPut, .removePut], [.appendGet, .appendPut, .removeGet, .removePut]] :=
  rfl

/-- Whatever the interleaving, the index ends as the call whose PUT comes last computed it from the
list its GET read: the other call's result when the other PUT came before that GET, else the
list the index held at the start. -/
theorem interleaving_last_put_wins (segs : List SegmentId) (x seg : SegmentId)
    (steps : List IndexStep) (h : steps ∈ interleavings) :
    (runIndexSteps x seg (IndexState.init segs) steps).index =
      if steps.getLast? = some .removePut then
        some (removeSegmentFromVolumeUpload
          (if steps.indexOf .appendPut < steps.indexOf .removeGet then segs ++ [seg] else segs) x)
      else
        some (appendToObjectsUpload
          (if steps.indexOf .removePut < steps.indexOf .appendGet
            then deleteFuncInPlace segs (· = x) else segs) seg) := by
  rw [interleavings_eq] at h
  simp only [List.mem_cons, List.mem_singleton, List.not_mem_nil, or_false] at h
  rcases h with rfl | rfl | rfl | rfl | rfl | rfl <;>
    simp [runIndexSteps, IndexState.step, IndexState.init, CallPc.get, CallPc.put, listSegments,
      readSegments_encodeSegments, appendToObjectsUpload, removeSegmentFromVolumeUpload]

/-- The removal's GET first and its PUT last: the index ends as the removal computed it from the
index it read. -/
theorem interleaving_last_put_wins_overlapping :
    [.removeGet, .appendGet, .appendPut, .removePut] ∈ interleavings ∧
      (runIndexSteps 1 2 (IndexState.init [1])
          [.removeGet, .appendGet, .appendPut, .removePut]).index =
        if [IndexStep.removeGet, .appendGet, .appendPut, .removePut].getLast? = some .removePut then
          some (removeSegmentFromVolumeUpload
            (if [IndexStep.removeGet, .appendGet, .appendPut, .removePut].indexOf .appendPut <
                [IndexStep.removeGet, .appendGet, .appendPut, .removePut].indexOf .removeGet
              then [1] ++ [2] else [1]) 1)
        else
          some (appendToObjectsUpload
            (if [IndexStep.removeGet, .appendGet, .appendPut, .removePut].indexOf .removePut <
                [IndexStep.removeGet, .appendGet, .appendPut, .removePut].indexOf .appendGet
              then deleteFuncInPlace [1] (· = 1) else [1]) 2) :=
  ⟨by decide, interleaving_last_put_wins [1] 1 2 _ (by decide)⟩

/-- Removing segment `1` from an index that holds it while segment `2` is appended: when the
removal's GET comes first and its PUT last, the index ends without segment `2`, unlike either
order of the two calls run one after the other. -/
theorem interleaving_loses_append :
    [.removeGet, .appendGet, .appendPut, .removePut] ∈ interleavings ∧
      (runIndexSteps 1 2 (IndexState.init [1]) [.removeGet, .appendGet, .appendPut, .removePut]).index ≠
        (runIndexSteps 1 2 (IndexState.init [1]) [.removeGet, .removePut, .appendGet, .appendPut]).index ∧
      (runIndexSteps 1 2 (IndexState.init [1]) [.removeGet, .appendGet, .appendPut, .removePut]).index ≠
        (runIndexSteps 1 2 (IndexState.init [1]) [.appendGet, .appendPut, .removeGet, .removePut]).index := by
  decide

end Lsvd
