import Lsvd.Concurrency

/-!
# Segments are written once, and the extent cache never goes stale

The store holds each segment under its id, and `ReadExtent` caches the raw bytes it reads from
a segment in the extent cache, keyed by segment, offset and size, and serves later reads from
there. Over every interleaving of the writer, the flush goroutines and the readers, a segment's
object, once stored, keeps its bytes until the cleanup removes it, and once removed it is never
stored again (`run_stores_segment_once`); and every extent the cache holds is the bytes stored at
its key for as long as its segment is stored (`run_cache_agrees_with_store`), so a read served
from the cache returns what a read from the store would.

Both rest on the ids (`Sys.Unflushed`): a segment is uploaded only by a goroutine's `Flush`, under
its id, and the ids a goroutine has still to flush, the one the writer holds, and those from
`curSeq` on are all above every id in use. The invariant `Sys.Clean` says that nothing is stored
or cached under them. An upload is under such an id, which it takes out of the set; the cleanup
removes only installed segments, never such an id; and a read caches only what it has just read
from a stored segment (`step_cache`). The set only shrinks (`unflushed_step`), so an id removed
stays removed.
-/

namespace Lsvd

namespace Disk

/-! ## What a read adds to the cache -/

/-- An entry that `lookup` finds is in the list. -/
theorem mem_of_lookup {l : List ((SegmentId × ℕ × ℕ) × List UInt8)} {k : SegmentId × ℕ × ℕ}
    {raw : List UInt8} (h : l.lookup k = some raw) : (k, raw) ∈ l := by
  induction l with
  | nil => cases h
  | cons e l ih =>
    rw [List.lookup_cons] at h
    split at h
    · rename_i hk
      cases h
      rw [beq_iff_eq.mp hk]
      exact List.mem_cons_self _ _
    · exact List.mem_cons_of_mem _ (ih h)

/-- A fetch from the store adds to the extent cache only the bytes stored at the key. -/
theorem fetchExtent_cache {objs : SegmentId → Option (List UInt8)} {d d' : Disk}
    {pe : PartialExtent} {raw : Option (List UInt8)}
    (h : fetchExtent (s3Reads objs) d pe = .ok (raw, d')) :
    ∀ e ∈ d'.extentCache.entries, e ∈ d.extentCache.entries ∨
      ∃ obj, objs e.1.1 = some obj ∧ bytesAt obj e.1.2.1 e.1.2.2 = e.2 := by
  unfold fetchExtent at h
  split at h
  · cases h
    exact fun e he => .inl he
  · split at h
    split_ifs at h
    all_goals
      split at h
      · cases h
        exact fun e he => .inl he
      · rename_i hread
        split_ifs at h
        cases h
        intro e he
        rcases List.mem_cons.mp he with rfl | he
        · obtain ⟨obj, hobj, hr⟩ := Option.bind_eq_some.mp hread
          split_ifs at hr
          exact .inr ⟨obj, hobj, Option.some.inj hr⟩
        · exact .inl he

/-- A read of an entry leaves the disk its fetch leaves. -/
theorem readPartialExtent_fetch {lz : Lz4} {io : SegmentReads} {d : Disk} {pe : PartialExtent}
    {rngs : List Extent} {dest dest' : RangeData} {d' : Disk}
    (h : readPartialExtent lz io d pe rngs dest = .ok (dest', d')) :
    ∃ raw, fetchExtent io d pe = .ok (raw, d') := by
  obtain ⟨⟨raw, d₁⟩, hf, h⟩ := bind_eq_ok.mp h
  cases raw with
  | none =>
    cases h
    exact ⟨_, hf⟩
  | some raw =>
    obtain ⟨cooked, -, h⟩ := bind_eq_ok.mp h
    obtain ⟨dest'', -, h⟩ := bind_eq_ok.mp h
    cases h
    exact ⟨_, hf⟩

/-- A reader's step adds to the extent cache only bytes stored at their keys. -/
theorem Reader.step_cache (lz : Lz4) (d : Disk) (r : Reader) :
    ∀ e ∈ (r.step lz d).1.extentCache.entries, e ∈ d.extentCache.entries ∨
      ∃ obj, d.objects e.1.1 = some obj ∧ bytesAt obj e.1.2.1 e.1.2.2 = e.2 := by
  unfold Reader.step
  split
  · exact fun e he => .inl he
  · split
    · rename_i h
      obtain ⟨raw, hf⟩ := readPartialExtent_fetch h
      exact fetchExtent_cache hf
    · exact fun e he => .inl he

/-- A goroutine's step leaves the extent cache as it is. -/
theorem Flusher.step_extentCache {d d' : Disk} {f : Flusher} {f' : Option Flusher}
    (hs : f.step d = some (d', f')) : d'.extentCache = d.extentCache := by
  cases hst : f.stage with
  | flush => obtain ⟨_, -, rfl, -⟩ := Flusher.step_flush hst hs; rfl
  | create es stats => obtain ⟨rfl, -⟩ := Flusher.step_create hst hs; rfl
  | update es => obtain ⟨rfl, -⟩ := Flusher.step_update hst hs; rfl
  | clear => obtain ⟨rfl, -⟩ := Flusher.step_clear hst hs; rfl
  | findDeleted => obtain ⟨rfl, -⟩ := Flusher.step_findDeleted hst hs; rfl
  | remove segs =>
    rcases Flusher.step_remove hst hs with ⟨rfl, -⟩ | ⟨_, _, _, -, -, rfl, -⟩ <;> rfl

namespace Sys

/-- An id a segment may still be uploaded under: a goroutine's before its `Flush`, the one the
writer holds between the halves of `closeSegmentAsync`, or one from `curSeq` on. -/
def Unflushed (S : Sys) (s : SegmentId) : Prop :=
  (∃ f ∈ S.flushers, f.stage = .flush ∧ f.segId = s) ∨ (∃ oc, S.held = some (oc, s)) ∨
    S.disk.curSeq ≤ s

/-- A segment removed for good: not stored, and not to be uploaded. -/
def Gone (S : Sys) (s : SegmentId) : Prop := S.disk.objects s = none ∧ ¬ S.Unflushed s

/-- The store and the extent cache: nothing stored or cached under an id still to be uploaded,
and every cached extent the bytes at its key while its segment is stored. -/
structure Clean (S : Sys) : Prop where
  unflushed : ∀ s, S.Unflushed s → S.disk.objects s = none
  uncached : ∀ s, S.Unflushed s → ∀ e ∈ S.disk.extentCache.entries, e.1.1 ≠ s
  cache : ∀ e ∈ S.disk.extentCache.entries, ∀ obj, S.disk.objects e.1.1 = some obj →
    bytesAt obj e.1.2.1 e.1.2.2 = e.2

/-- A new volume stores and caches nothing. -/
theorem clean_init (s0 : SegmentId) : (init s0).Clean :=
  ⟨fun _ _ => rfl, fun _ _ _ he => absurd he (List.not_mem_nil _),
    fun _ he => absurd he (List.not_mem_nil _)⟩

section

variable {lz : Lz4} {env : WriteEnv} {S S' : Sys} {a : Action}

/-- The id handed to the next goroutine is at most `curSeq`. -/
theorem Inv.next_le (h : S.Inv) : S.next ≤ S.disk.curSeq := by
  unfold next
  split
  · exact (h.held _ _ ‹_›).1.le
  · exact le_rfl

/-- An installed segment is not to be uploaded again. -/
theorem Inv.not_unflushed (h : S.Inv) {s : SegmentId} (hi : S.disk.s.installed s = true) :
    ¬ S.Unflushed s := by
  have hnext := h.installedFresh s hi
  rintro (⟨f, hf, hst, rfl⟩ | ⟨oc, hh⟩ | hle)
  · have hok := h.flushers f hf
    rw [Flusher.Ok, hst] at hok
    rw [hok.2.1] at hi
    cases hi
  · rw [next, hh] at hnext
    exact lt_irrefl _ hnext
  · exact not_lt.mpr hle (hnext.trans_le h.next_le)

/-- No step adds an id to upload under: the writer's replacing hands on `curSeq` and moves it up,
`SetWhenClear` hands the held id to the goroutine, and a goroutine never goes back to `Flush`. -/
theorem unflushed_step (h : S.Inv) (henv : ∀ s', env.nextSeq S.disk.curSeq = some s' →
    S.disk.curSeq < s') (hs : S.step lz env a = some S') {s : SegmentId} (hu : S'.Unflushed s) :
    S.Unflushed s := by
  cases a with
  | write data => obtain ⟨_, -, -, rfl⟩ := step_write hs; exact hu
  | zero rng => obtain ⟨_, -, -, rfl⟩ := step_zero hs; exact hu
  | replace =>
    obtain ⟨-, hr⟩ := step_replace hs
    split at hr
    · subst hr; exact hu
    · rename_i seq hseq
      have hlt := henv seq hseq
      split_ifs at hr <;> subst hr
      · rcases hu with hf | ⟨oc, hh⟩ | hle
        · exact .inl hf
        · cases hh
          exact .inr (.inr le_rfl)
        · exact .inr (.inr (hlt.le.trans hle))
      · rcases hu with hf | hh | hle
        · exact .inl hf
        · exact .inr (.inl hh)
        · exact .inr (.inr (hlt.le.trans hle))
  | setWhenClear =>
    obtain ⟨oc, segId, hheld, -, rfl⟩ := step_setWhenClear hs
    rcases hu with ⟨f, hf, hst, rfl⟩ | ⟨_, hh⟩ | hle
    · rcases List.mem_append.mp hf with hf | hf
      · exact .inl ⟨f, hf, hst, rfl⟩
      · rw [List.mem_singleton.mp hf]
        exact .inr (.inl ⟨_, hheld⟩)
    · cases hh
    · exact .inr (.inr hle)
  | flushStep i =>
    obtain ⟨f, d', f', hi, hf, rfl⟩ := step_flushStep hs
    have hseq := (Flusher.step_spec h.gc (h.flushers f (List.getElem?_mem hi)) hf).curSeq
    rcases hu with ⟨g, hg, hst, rfl⟩ | hh | hle
    · rcases mem_setOrDrop hg with hg | hg | hg
      · exact absurd hst (Flusher.step_stage_ne_flush hf g hg)
      · exact .inl ⟨g, List.mem_of_mem_take hg, hst, rfl⟩
      · exact .inl ⟨g, List.mem_of_mem_drop hg, hst, rfl⟩
    · exact .inr (.inl hh)
    · exact .inr (.inr (hseq ▸ hle))
  | readStart rng => obtain ⟨_, rfl⟩ := step_readStart hs; exact hu
  | readStep i => obtain ⟨_, _, _, rfl⟩ := step_readStep hs; exact hu
  | cancel seg => obtain rfl := step_cancel hs; exact hu

/-- What a step does to a segment's object: nothing; or an upload under an id it then takes out
of those to upload under; or a removal of a segment not to be uploaded. -/
theorem objects_step (h : S.Inv) (hs : S.step lz env a = some S') (s : SegmentId) :
    S'.disk.objects s = S.disk.objects s ∨ (S.Unflushed s ∧ ¬ S'.Unflushed s) ∨
      (S'.disk.objects s = none ∧ ¬ S.Unflushed s) := by
  cases a with
  | write data => obtain ⟨_, -, -, rfl⟩ := step_write hs; exact .inl rfl
  | zero rng => obtain ⟨_, -, -, rfl⟩ := step_zero hs; exact .inl rfl
  | replace =>
    obtain ⟨-, hr⟩ := step_replace hs
    split at hr
    · subst hr; exact .inl rfl
    · split_ifs at hr <;> subst hr <;> exact .inl rfl
  | setWhenClear => obtain ⟨_, _, -, -, rfl⟩ := step_setWhenClear hs; exact .inl rfl
  | flushStep i =>
    obtain ⟨f, d', f', hi, hf, rfl⟩ := step_flushStep hs
    have hfm : f ∈ S.flushers := List.getElem?_mem hi
    cases hst : f.stage with
    | flush =>
      obtain ⟨idx, -, rfl, rfl⟩ := Flusher.step_flush hst hf
      by_cases hsf : s = f.segId
      · subst hsf
        have hlt := h.fresh f hfm
        refine .inr (.inl ⟨.inl ⟨f, hfm, hst, rfl⟩, ?_⟩)
        rintro (⟨g, hg, hgst, hgid⟩ | ⟨oc, hh⟩ | hle)
        · rcases mem_setOrDrop hg with hg' | hg'
          · exact Flusher.step_stage_ne_flush hf g hg' hgst
          · exact segId_ne_of_mem hi h.distinct hg' hgid
        · rw [next, show S.held = some (oc, f.segId) from hh] at hlt
          exact lt_irrefl _ hlt
        · exact not_lt.mpr hle (hlt.trans_le h.next_le)
      · exact .inl (if_neg hsf)
    | create es stats => obtain ⟨rfl, rfl⟩ := Flusher.step_create hst hf; exact .inl rfl
    | update es => obtain ⟨rfl, rfl⟩ := Flusher.step_update hst hf; exact .inl rfl
    | clear => obtain ⟨rfl, rfl⟩ := Flusher.step_clear hst hf; exact .inl rfl
    | findDeleted => obtain ⟨rfl, rfl⟩ := Flusher.step_findDeleted hst hf; exact .inl rfl
    | remove segs =>
      rcases Flusher.step_remove hst hf with ⟨rfl, rfl⟩ | ⟨i, is, idx, rfl, -, rfl, rfl⟩
      · exact .inl rfl
      · have hok := h.flushers f hfm
        rw [Flusher.Ok, hst] at hok
        by_cases hsi : s = i
        · subst hsi
          exact .inr (.inr ⟨if_pos rfl, h.not_unflushed (hok s (List.mem_cons_self _ _)).1⟩)
        · exact .inl (if_neg hsi)
  | readStart rng => obtain ⟨_, rfl⟩ := step_readStart hs; exact .inl rfl
  | readStep i => obtain ⟨_, _, _, rfl⟩ := step_readStep hs; exact .inl rfl
  | cancel seg => obtain rfl := step_cancel hs; exact .inl rfl

/-- A step adds to the extent cache only bytes stored at their keys: a reader's, what it has just
read; no other step touches the cache. -/
theorem step_cache (hs : S.step lz env a = some S') :
    ∀ e ∈ S'.disk.extentCache.entries, e ∈ S.disk.extentCache.entries ∨
      ∃ obj, S.disk.objects e.1.1 = some obj ∧ bytesAt obj e.1.2.1 e.1.2.2 = e.2 := by
  cases a with
  | write data => obtain ⟨_, -, -, rfl⟩ := step_write hs; exact fun e he => .inl he
  | zero rng => obtain ⟨_, -, -, rfl⟩ := step_zero hs; exact fun e he => .inl he
  | replace =>
    obtain ⟨-, hr⟩ := step_replace hs
    split at hr
    · subst hr; exact fun e he => .inl he
    · split_ifs at hr <;> subst hr <;> exact fun e he => .inl he
  | setWhenClear =>
    obtain ⟨_, _, -, -, rfl⟩ := step_setWhenClear hs; exact fun e he => .inl he
  | flushStep i =>
    obtain ⟨f, d', f', -, hf, rfl⟩ := step_flushStep hs
    exact fun e he => .inl (Flusher.step_extentCache hf ▸ he)
  | readStart rng => obtain ⟨_, rfl⟩ := step_readStart hs; exact fun e he => .inl he
  | cancel seg => obtain rfl := step_cancel hs; exact fun e he => .inl he
  | readStep i =>
    simp only [Sys.step] at hs
    split at hs
    · cases hs
    · cases hs
      exact Reader.step_cache lz S.disk _

/-- Every step keeps the store and the extent cache clean. -/
theorem Clean.step (hc : S.Clean) (h : S.Inv) (henv : ∀ s', env.nextSeq S.disk.curSeq = some s' →
    S.disk.curSeq < s') (hs : S.step lz env a = some S') : S'.Clean := by
  refine ⟨fun s hu => ?_, fun s hu e he => ?_, fun e he obj hobj => ?_⟩
  · rcases objects_step h hs s with hsame | ⟨-, hnu⟩ | ⟨hnone, -⟩
    · rw [hsame]
      exact hc.unflushed s (unflushed_step h henv hs hu)
    · exact absurd hu hnu
    · exact hnone
  · have hu₀ := unflushed_step h henv hs hu
    rcases step_cache hs e he with hold | ⟨obj, hobj, -⟩
    · exact hc.uncached s hu₀ e hold
    · rintro rfl
      rw [hc.unflushed _ hu₀] at hobj
      cases hobj
  · rcases objects_step h hs e.1.1 with hsame | ⟨hu₀, -⟩ | ⟨hnone, -⟩
    · rcases step_cache hs e he with hold | ⟨obj', hobj', hb⟩
      · exact hc.cache e hold obj (hsame ▸ hobj)
      · rw [hsame, hobj'] at hobj
        cases hobj
        exact hb
    · rcases step_cache hs e he with hold | ⟨obj', hobj', -⟩
      · exact absurd rfl (hc.uncached _ hu₀ e hold)
      · rw [hc.unflushed _ hu₀] at hobj'
        cases hobj'
    · rw [hnone] at hobj
      cases hobj

/-- A step keeps a stored segment's bytes or removes it for good, and keeps a segment removed for
good so. -/
theorem Clean.objects_step (hc : S.Clean) (h : S.Inv) (henv : ∀ s', env.nextSeq S.disk.curSeq =
    some s' → S.disk.curSeq < s') (hs : S.step lz env a = some S') (s : SegmentId) :
    (∀ obj, S.disk.objects s = some obj → S'.disk.objects s = some obj ∨ S'.Gone s) ∧
      (S.Gone s → S'.Gone s) := by
  have hmono : ¬ S.Unflushed s → ¬ S'.Unflushed s := fun hnu hu => hnu (unflushed_step h henv hs hu)
  rcases Sys.objects_step h hs s with hsame | ⟨hu, hnu⟩ | ⟨hnone, hnu⟩
  · exact ⟨fun obj ho => .inl (hsame ▸ ho), fun hg => ⟨hsame ▸ hg.1, hmono hg.2⟩⟩
  · refine ⟨fun obj ho => ?_, fun hg => absurd hu hg.2⟩
    rw [hc.unflushed s hu] at ho
    cases ho
  · exact ⟨fun _ _ => .inr ⟨hnone, hmono hnu⟩, fun _ => ⟨hnone, hmono hnu⟩⟩

/-- Every interleaving of valid actions keeps the invariants, and keeps a stored segment's bytes
or removes it for good, and a segment removed for good so. -/
theorem Clean.run (hc : S.Clean) (h : S.Inv) (henv : ∀ s s', env.nextSeq s = some s' → s < s')
    {acts : List Action} (hacts : ∀ a ∈ acts, a.Valid) (hrun : Sys.run lz env S acts = some S')
    (s : SegmentId) :
    S'.Inv ∧ S'.Clean ∧ (∀ obj, S.disk.objects s = some obj → S'.disk.objects s = some obj ∨
      S'.Gone s) ∧ (S.Gone s → S'.Gone s) := by
  induction acts generalizing S with
  | nil =>
    cases hrun
    exact ⟨h, hc, fun _ => .inl, id⟩
  | cons a as ih =>
    obtain ⟨S₁, h₁, hrun⟩ := Option.bind_eq_some.mp hrun
    have ha := hacts a (List.mem_cons_self _ _)
    obtain ⟨hkeep, hgone⟩ := hc.objects_step h (henv _) h₁ s
    obtain ⟨h', hc', hkeep', hgone'⟩ := ih (hc.step h (henv _) h₁) (h.step (henv _) ha h₁)
      (fun b hb => hacts b (List.mem_cons_of_mem _ hb)) hrun
    refine ⟨h', hc', fun obj ho => ?_, hgone' ∘ hgone⟩
    rcases hkeep obj ho with ho₁ | hg
    · exact hkeep' obj ho₁
    · exact .inr (hgone' hg)

end

end Sys

/-! ## Over every interleaving -/

/-- Over every interleaving of valid actions from a new volume, with ids drawn in increasing
order, a segment's object, once stored, is the same bytes at every later point until it is
removed, and once removed it is never stored again. -/
theorem run_stores_segment_once {lz : Lz4} {env : WriteEnv}
    (henv : ∀ s s', env.nextSeq s = some s' → s < s') {s0 : SegmentId} {as bs cs : List Action}
    (hacts : ∀ a ∈ as ++ bs ++ cs, a.Valid) {S₁ S₂ S₃ : Sys}
    (h₁ : Sys.run lz env (Sys.init s0) as = some S₁) (h₂ : Sys.run lz env S₁ bs = some S₂)
    (h₃ : Sys.run lz env S₂ cs = some S₃) :
    ∀ s obj, S₁.disk.objects s = some obj →
      (S₂.disk.objects s = some obj ∨ S₂.disk.objects s = none) ∧
        (S₂.disk.objects s = none → S₃.disk.objects s = none) := by
  intro s obj hs
  obtain ⟨hi₁, hc₁, -⟩ := (Sys.clean_init s0).run (Sys.inv_init s0) henv
    (fun a ha => hacts a (by simp [ha])) h₁ s
  obtain ⟨hi₂, hc₂, hkeep, -⟩ := hc₁.run hi₁ henv (fun a ha => hacts a (by simp [ha])) h₂ s
  obtain ⟨-, -, -, hgone⟩ := hc₂.run hi₂ henv (fun a ha => hacts a (by simp [ha])) h₃ s
  rcases hkeep obj hs with h | hg
  · exact ⟨.inl h, fun hn => by rw [h] at hn; cases hn⟩
  · exact ⟨.inr hg.1, fun _ => (hgone hg).1⟩

/-- After the race, the second goroutine's cleanup loop ends, and block 0 is written and sealed
once more, its goroutine run to its end. -/
def resealAfterRace : List Action :=
  [.flushStep 0, .write ⟨⟨0, 1⟩, onesBlock⟩, .replace, .setWhenClear] ++ List.replicate 6 (.flushStep 0)

/-- In the race of a read with the cleanup, segment 0 is stored by the first goroutine's `Flush`
and removed by the second goroutine's cleanup; a third seal then stores segment 2, and segment 0
stays removed. -/
theorem run_stores_segment_once_in_gcRace :
    (∀ s s', countingEnv.nextSeq s = some s' → s < s') ∧
      (∀ a ∈ gcRace.take 4 ++ gcRace.drop 4 ++ resealAfterRace, a.Valid) ∧
      ∃ S₁ S₂ S₃, Sys.run Lz4.never countingEnv (Sys.init 0) (gcRace.take 4) = some S₁ ∧
        Sys.run Lz4.never countingEnv S₁ (gcRace.drop 4) = some S₂ ∧
        Sys.run Lz4.never countingEnv S₂ resealAfterRace = some S₃ ∧
        (S₁.disk.objects 0).isSome ∧ S₂.disk.objects 0 = none ∧ (S₃.disk.objects 2).isSome ∧
        ∀ s obj, S₁.disk.objects s = some obj →
          (S₂.disk.objects s = some obj ∨ S₂.disk.objects s = none) ∧
            (S₂.disk.objects s = none → S₃.disk.objects s = none) := by
  have hacts : ∀ a ∈ gcRace.take 4 ++ gcRace.drop 4 ++ resealAfterRace, a.Valid := by
    have hre : ∀ a ∈ resealAfterRace, a.Valid := by
      simp [resealAfterRace, Action.Valid, RangeData.Wf, onesBlock]
    rw [List.take_append_drop]
    exact fun a ha => (List.mem_append.mp ha).elim (gcRace_valid a) (hre a)
  obtain ⟨S₁, h₁⟩ : ∃ S, Sys.run Lz4.never countingEnv (Sys.init 0) (gcRace.take 4) = some S :=
    Option.isSome_iff_exists.mp (by rfl)
  obtain ⟨S₂, h⟩ : ∃ S, Sys.run Lz4.never countingEnv (Sys.init 0) gcRace = some S :=
    Option.isSome_iff_exists.mp (by rfl)
  obtain ⟨S₃, h'⟩ : ∃ S, Sys.run Lz4.never countingEnv (Sys.init 0) (gcRace ++ resealAfterRace) =
      some S := Option.isSome_iff_exists.mp (by rfl)
  have ht₁ : (Sys.run Lz4.never countingEnv (Sys.init 0) (gcRace.take 4)).any
      (fun S => (S.disk.objects 0).isSome) = true := by rfl
  have ht₂ : (Sys.run Lz4.never countingEnv (Sys.init 0) gcRace).any
      (fun S => (S.disk.objects 0).isNone) = true := by rfl
  have ht₃ : (Sys.run Lz4.never countingEnv (Sys.init 0) (gcRace ++ resealAfterRace)).any
      (fun S => (S.disk.objects 2).isSome) = true := by rfl
  rw [h₁, Option.any_some] at ht₁
  rw [h, Option.any_some, Option.isNone_iff_eq_none] at ht₂
  rw [h', Option.any_some] at ht₃
  have h₂ : Sys.run Lz4.never countingEnv S₁ (gcRace.drop 4) = some S₂ := by
    rwa [← List.take_append_drop 4 gcRace, Sys.run_append, h₁, Option.some_bind] at h
  have h₃ : Sys.run Lz4.never countingEnv S₂ resealAfterRace = some S₃ := by
    rwa [Sys.run_append, h, Option.some_bind] at h'
  exact ⟨countingEnv_increasing, hacts, S₁, S₂, S₃, h₁, h₂, h₃, ht₁, ht₂, ht₃,
    run_stores_segment_once countingEnv_increasing hacts h₁ h₂ h₃⟩

/-- Over every interleaving of valid actions from a new volume, with ids drawn in increasing
order, the extent cache never goes stale: what it holds for a location is the bytes stored at the
location's offset and size in its segment, for as long as the segment is stored. -/
theorem run_cache_agrees_with_store {lz : Lz4} {env : WriteEnv}
    (henv : ∀ s s', env.nextSeq s = some s' → s < s') {s0 : SegmentId} {acts : List Action}
    (hacts : ∀ a ∈ acts, a.Valid) {S : Sys} (hrun : Sys.run lz env (Sys.init s0) acts = some S) :
    ∀ loc raw, S.disk.extentCache.readExtent loc = some raw →
      ∀ obj, S.disk.objects loc.segment = some obj → bytesAt obj loc.offset loc.size = raw := by
  intro loc raw hc obj hobj
  obtain ⟨-, hcl, -⟩ := (Sys.clean_init s0).run (Sys.inv_init s0) henv hacts hrun s0
  exact hcl.cache _ (mem_of_lookup hc) obj hobj

/-- Block 0 written and sealed, its goroutine run to its end, then a read of block 0 started and
its request read from segment 0. -/
def cachedRead : List Action := gcRace.take 10 ++ [.readStep 0]

/-- The run that reads block 0 from segment 0 keeps the cache coherent. -/
theorem run_cache_agrees_with_store_after_cachedRead :
    (∀ s s', countingEnv.nextSeq s = some s' → s < s') ∧ (∀ a ∈ cachedRead, a.Valid) ∧
      ∃ S, Sys.run Lz4.never countingEnv (Sys.init 0) cachedRead = some S ∧
        ∀ loc raw, S.disk.extentCache.readExtent loc = some raw →
          ∀ obj, S.disk.objects loc.segment = some obj → bytesAt obj loc.offset loc.size = raw := by
  have hacts : ∀ a ∈ cachedRead, a.Valid := fun a ha => by
    rcases List.mem_append.mp ha with ha | ha
    · exact gcRace_valid a (List.mem_of_mem_take ha)
    · rw [List.mem_singleton.mp ha]
      trivial
  obtain ⟨S, hrun⟩ : ∃ S, Sys.run Lz4.never countingEnv (Sys.init 0) cachedRead = some S :=
    Option.isSome_iff_exists.mp (by rfl)
  exact ⟨countingEnv_increasing, hacts, S, hrun,
    run_cache_agrees_with_store countingEnv_increasing hacts hrun⟩

end Disk

end Lsvd
