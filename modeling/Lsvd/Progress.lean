import Lsvd.Coherence

/-!
# The flush goroutines finish while their `ctx` lives

`SetWhenClear` waits while the previous cache is full, and only a flush goroutine's `Clear`
empties it. A goroutine runs with the `ctx` of the call that sealed its creator. While no goroutine
still in `Flush` has a done `ctx`, the wait is not for ever: from every state an interleaving
reaches, the goroutines can be run to their ends, each of their steps possible, after which the
previous cache is empty and `SetWhenClear` goes through (`run_can_finish_flushes`). Once the `ctx`
of a goroutine still in `Flush` is done, the goroutine retries for ever, its creator never leaves
the previous cache, and every later `SetWhenClear` waits for ever
(`run_cancelled_flush_blocks_seals`).

Two facts hold over every interleaving (`Sys.Live`): the volume's object index can be listed, so
`Flush`, which appends to it, succeeds (`Flusher.step_isSome`); and a creator in the previous cache
belongs to a goroutine that has still to `Clear` it (`Flusher.live_step`). A goroutine has at most
five stages before its cleanup loop (`Flusher.rank`), and each turn of the loop removes one
segment, so run on its own, not stuck, it ends (`runs_out`); run one after another, they all end
(`drains`). A goroutine stuck in `Flush` is never dropped, whatever runs (`Sys.stuck_run`).

The same wait is what serializes the flushes (`run_one_flush_before_clear`): the previous cache
holds a creator exactly when a goroutine is before its `Clear`, and it is that goroutine's, of
which there is at most one (`Sys.Coherent`). A goroutine past its `Clear`, in `FindDeleted` or its
cleanup loop, runs on beside the next seal's.
-/

namespace Lsvd

namespace Disk

/-- How many stages a goroutine has left before its cleanup loop. -/
def Flusher.rank (f : Flusher) : ℕ :=
  match f.stage with
  | .flush => 5
  | .create _ _ => 4
  | .update _ => 3
  | .clear => 2
  | .findDeleted => 1
  | .remove _ => 0

section

variable {d d' : Disk} {f : Flusher} {f' : Option Flusher}

/-- Every step of a goroutine can be taken while the volume's object index can be listed. -/
theorem Flusher.step_isSome (hidx : (listSegments d.index).isSome) (f : Flusher) :
    (f.step d).isSome := by
  obtain ⟨oc, segId, stage⟩ := f
  cases stage with
  | flush =>
    obtain ⟨segs, hsegs⟩ := Option.isSome_iff_exists.mp hidx
    simp [Flusher.step, flushUpload, appendToObjects, hsegs]
  | remove segs =>
    cases segs with
    | nil => rfl
    | cons i is =>
      simp only [Flusher.step]
      cases removeSegmentFromVolume d.index i <;> rfl
  | create _ _ | update _ | clear | findDeleted => rfl

/-- A step keeps the index listable; `Clear` empties the previous cache, every other step keeps
it, and a goroutine before `Clear` stays before it. -/
theorem Flusher.live_step (hidx : (listSegments d.index).isSome) (hs : f.step d = some (d', f')) :
    (listSegments d'.index).isSome ∧ (f.stage = .clear → d'.prevCache = none) ∧
      (f.stage ≠ .clear → d'.prevCache = d.prevCache ∧
        (f.stage.pending = true → ∃ g ∈ f'.toList, g.stage.pending = true)) := by
  obtain ⟨oc, segId, stage⟩ := f
  cases stage with
  | flush =>
    obtain ⟨idx, hidx', rfl, rfl⟩ := Flusher.step_flush rfl hs
    exact ⟨listSegments_appendToObjects hidx', nofun,
      fun _ => ⟨rfl, fun _ => ⟨_, List.mem_singleton_self _, rfl⟩⟩⟩
  | create es stats =>
    obtain ⟨rfl, rfl⟩ := Flusher.step_create rfl hs
    exact ⟨hidx, nofun, fun _ => ⟨rfl, fun _ => ⟨_, List.mem_singleton_self _, rfl⟩⟩⟩
  | update es =>
    obtain ⟨rfl, rfl⟩ := Flusher.step_update rfl hs
    exact ⟨hidx, nofun, fun _ => ⟨rfl, fun _ => ⟨_, List.mem_singleton_self _, rfl⟩⟩⟩
  | clear =>
    obtain ⟨rfl, rfl⟩ := Flusher.step_clear rfl hs
    exact ⟨hidx, fun _ => rfl, fun h => absurd rfl h⟩
  | findDeleted =>
    obtain ⟨rfl, rfl⟩ := Flusher.step_findDeleted rfl hs
    exact ⟨hidx, nofun, fun _ => ⟨rfl, nofun⟩⟩
  | remove segs =>
    rcases Flusher.step_remove rfl hs with ⟨rfl, rfl⟩ | ⟨i, is, idx, rfl, hr, rfl, rfl⟩
    · exact ⟨hidx, nofun, fun _ => ⟨rfl, nofun⟩⟩
    · exact ⟨listSegments_removeSegmentFromVolume hr, nofun, fun _ => ⟨rfl, nofun⟩⟩

/-- A goroutine at rank `0` is in its cleanup loop. -/
theorem Flusher.rank_eq_zero (h : f.rank = 0) : ∃ segs, f.stage = .remove segs := by
  unfold Flusher.rank at h
  split at h <;> first | exact ⟨_, ‹_›⟩ | cases h

/-- A step before the cleanup loop moves the goroutine one stage on. -/
theorem Flusher.step_rank (hs : f.step d = some (d', f')) (hr : f.rank ≠ 0) :
    ∃ g, f' = some g ∧ g.rank + 1 = f.rank := by
  obtain ⟨oc, segId, stage⟩ := f
  cases stage with
  | flush =>
    obtain ⟨idx, -, -, rfl⟩ := Flusher.step_flush rfl hs
    exact ⟨_, rfl, rfl⟩
  | remove segs => exact absurd rfl hr
  | create _ _ | update _ | clear | findDeleted =>
    simp only [Flusher.step, Option.some.injEq, Prod.mk.injEq] at hs
    obtain ⟨-, rfl⟩ := hs
    exact ⟨_, rfl, rfl⟩

end

section

variable {α : Type} {l : List α} {i : ℕ}

/-- The element put at `i` is there. -/
theorem getElem?_setOrDrop (hi : i < l.length) (x : α) : (setOrDrop l i (some x))[i]? = some x := by
  have h : (l.take i).length = i := List.length_take_of_le hi.le
  simp only [setOrDrop, Option.toList_some, List.append_assoc, List.singleton_append]
  rw [List.getElem?_append_right (by omega), h, Nat.sub_self, List.getElem?_cons_zero]

/-- Dropping the `i`-th element is erasing it. -/
theorem setOrDrop_none (l : List α) (i : ℕ) : setOrDrop l i none = l.eraseIdx i := by
  simp [setOrDrop, List.eraseIdx_eq_take_drop_succ]

/-- Replacing the `i`-th element and then erasing it is erasing it. -/
theorem eraseIdx_setOrDrop (hi : i < l.length) (x : α) :
    (setOrDrop l i (some x)).eraseIdx i = l.eraseIdx i := by
  have h : (l.take i).length = i := List.length_take_of_le hi.le
  rw [setOrDrop, List.append_assoc, List.eraseIdx_append_of_length_le h.le, h, Nat.sub_self,
    List.eraseIdx_eq_take_drop_succ l]
  rfl

end

namespace Sys

/-- What keeps an interleaving able to move: the volume's object index can be listed, and a
creator in the previous cache belongs to a goroutine that has still to `Clear` it. -/
structure Live (S : Sys) : Prop where
  index : (listSegments S.disk.index).isSome
  prev : S.disk.prevCache.isSome → ∃ f ∈ S.flushers, f.stage.pending = true

section

variable {lz : Lz4} {env : WriteEnv} {S S' : Sys}

/-- A new volume. -/
theorem live_init (s0 : SegmentId) : (init s0).Live := ⟨rfl, nofun⟩

/-- A goroutine's step, not stuck, as an action. -/
theorem step_flushStep_eq {i : ℕ} {f : Flusher} (hi : S.flushers[i]? = some f)
    (hns : f.stuck S.cancelled = false) {d' : Disk} {f' : Option Flusher}
    (hs : f.step S.disk = some (d', f')) :
    S.step lz env (.flushStep i) = some { S with disk := d', flushers := setOrDrop S.flushers i f' } := by
  simp [Sys.step, hi, hs, hns]

/-- A goroutine's step keeps it. -/
theorem Live.flushStep (hl : S.Live) {i : ℕ} {f : Flusher} (hi : S.flushers[i]? = some f)
    {d' : Disk} {f' : Option Flusher} (hs : f.step S.disk = some (d', f')) :
    Live { S with disk := d', flushers := setOrDrop S.flushers i f' } := by
  obtain ⟨hidx, hclear, hkeep⟩ := Flusher.live_step hl.index hs
  refine ⟨hidx, fun hp => ?_⟩
  by_cases hst : f.stage = .clear
  · rw [show d'.prevCache = none from hclear hst] at hp
    cases hp
  obtain ⟨hprev, hpend⟩ := hkeep hst
  obtain ⟨g, hg, hgp⟩ := hl.prev (hprev ▸ hp)
  cases hfp : f.stage.pending with
  | true =>
    obtain ⟨g', hg', hg'p⟩ := hpend hfp
    exact ⟨g', List.mem_append_left _ (List.mem_append_right _ hg'), hg'p⟩
  | false =>
    -- The goroutine before `Clear` is another one, still there.
    rw [eq_take_cons_drop hi, List.mem_append, List.mem_cons] at hg
    refine ⟨g, ?_, hgp⟩
    rcases hg with hg | rfl | hg
    · exact List.mem_append_left _ (List.mem_append_left _ hg)
    · rw [hfp] at hgp
      cases hgp
    · exact List.mem_append_right _ hg

/-- Every action keeps it. -/
theorem Live.step (hl : S.Live) {a : Action} (hs : S.step lz env a = some S') : S'.Live := by
  cases a with
  | write data =>
    obtain ⟨_, -, -, rfl⟩ := step_write hs
    exact { hl with }
  | zero rng =>
    obtain ⟨_, -, -, rfl⟩ := step_zero hs
    exact { hl with }
  | replace =>
    obtain ⟨-, hS⟩ := step_replace hs
    split at hS
    · subst hS
      exact { hl with }
    · split_ifs at hS <;> (subst hS; exact { hl with })
  | setWhenClear =>
    obtain ⟨oc, segId, -, -, rfl⟩ := step_setWhenClear hs
    exact ⟨hl.index, fun _ => ⟨_, List.mem_append_right _ (List.mem_singleton_self _), rfl⟩⟩
  | flushStep i =>
    obtain ⟨f, d', f', hi, hf, rfl⟩ := step_flushStep hs
    exact hl.flushStep hi hf
  | readStart rng =>
    obtain ⟨_, rfl⟩ := step_readStart hs
    exact { hl with }
  | readStep i =>
    obtain ⟨_, _, _, rfl⟩ := step_readStep hs
    exact { hl with }
  | cancel seg =>
    obtain rfl := step_cancel hs
    exact { hl with }

/-- Every interleaving keeps it. -/
theorem Live.run (hl : S.Live) {acts : List Action} (hrun : Sys.run lz env S acts = some S') :
    S'.Live := by
  induction acts generalizing S with
  | nil =>
    cases hrun
    exact hl
  | cons a as ih =>
    rw [Sys.run, Option.bind_eq_some] at hrun
    obtain ⟨S₁, h₁, hrun⟩ := hrun
    exact ih (hl.step h₁) hrun

/-- The `i`-th goroutine, in its cleanup loop, run on its own, ends. -/
theorem runs_out_remove {i : ℕ} (segs : List SegmentId) :
    ∀ (S : Sys) (f : Flusher), S.Live → S.flushers[i]? = some f → f.stage = .remove segs →
      ∃ n S', Sys.run lz env S (List.replicate n (.flushStep i)) = some S' ∧ S'.Live ∧
        S'.flushers = S.flushers.eraseIdx i ∧ S'.cancelled = S.cancelled ∧ S'.held = S.held := by
  have hlt : ∀ {S : Sys} {f : Flusher}, S.flushers[i]? = some f → i < S.flushers.length :=
    fun hi => (List.getElem?_eq_some.mp hi).1
  -- In the cleanup loop a goroutine is not stuck.
  have hns : ∀ {S : Sys} {f : Flusher} {segs : List SegmentId}, f.stage = .remove segs →
      f.stuck S.cancelled = false := fun hst => Flusher.stuck_eq_false (by rw [hst]; nofun)
  -- The goroutine returns: dropped from the list.
  have hend : ∀ (S : Sys) (f : Flusher), S.Live → S.flushers[i]? = some f →
      f.stuck S.cancelled = false → f.step S.disk = some (S.disk, none) →
      ∃ n S', Sys.run lz env S (List.replicate n (.flushStep i)) = some S' ∧ S'.Live ∧
        S'.flushers = S.flushers.eraseIdx i ∧ S'.cancelled = S.cancelled ∧ S'.held = S.held :=
    fun S f hl hi hf hs =>
    ⟨1, _, by simp only [List.replicate, Sys.run, step_flushStep_eq hi hf hs, Option.some_bind],
      hl.flushStep hi hs, setOrDrop_none _ _, rfl, rfl⟩
  induction segs with
  | nil =>
    intro S f hl hi hst
    exact hend S f hl hi (hns hst) (by simp [Flusher.step, hst])
  | cons j js ih =>
    intro S f hl hi hst
    cases hr : removeSegmentFromVolume S.disk.index j with
    | none => exact hend S f hl hi (hns hst) (by simp [Flusher.step, hst, hr])
    | some idx =>
      have hs : f.step S.disk = some (removeSegmentIfPossible { S.disk with index := some idx } j,
          some { f with stage := .remove js }) := by
        simp [Flusher.step, hst, hr]
      obtain ⟨n, S', hrun, hl', hfl, hc, hheld⟩ := ih _ _ (hl.flushStep hi hs)
        (getElem?_setOrDrop (hlt hi) _) rfl
      refine ⟨n + 1, S', ?_, hl', hfl.trans (eraseIdx_setOrDrop (hlt hi) _), hc, hheld⟩
      rw [List.replicate_succ, Sys.run, step_flushStep_eq hi (hns hst) hs, Option.some_bind]
      exact hrun

/-- The `i`-th goroutine, not stuck, run on its own, ends. -/
theorem runs_out {i : ℕ} (k : ℕ) :
    ∀ (S : Sys) (f : Flusher), f.rank = k → S.Live → S.flushers[i]? = some f →
      f.stuck S.cancelled = false →
      ∃ n S', Sys.run lz env S (List.replicate n (.flushStep i)) = some S' ∧ S'.Live ∧
        S'.flushers = S.flushers.eraseIdx i ∧ S'.cancelled = S.cancelled ∧ S'.held = S.held := by
  induction k with
  | zero =>
    intro S f hk hl hi _
    obtain ⟨segs, hst⟩ := Flusher.rank_eq_zero hk
    exact runs_out_remove segs S f hl hi hst
  | succ k ih =>
    intro S f hk hl hi hns
    obtain ⟨⟨d', f'⟩, hs⟩ := Option.isSome_iff_exists.mp (Flusher.step_isSome hl.index f)
    obtain ⟨g, rfl, hg⟩ := Flusher.step_rank hs (by omega)
    have hlt : i < S.flushers.length := (List.getElem?_eq_some.mp hi).1
    -- Past `Flush`, the goroutine is not stuck.
    have hgs : g.stuck S.cancelled = false := Flusher.stuck_eq_false fun h =>
      absurd h (Flusher.step_stage_ne_flush hs g (List.mem_singleton_self _))
    obtain ⟨n, S', hrun, hl', hfl, hc, hheld⟩ := ih _ g (by omega) (hl.flushStep hi hs)
      (getElem?_setOrDrop hlt g) hgs
    refine ⟨n + 1, S', ?_, hl', hfl.trans (eraseIdx_setOrDrop hlt g), hc, hheld⟩
    rw [List.replicate_succ, Sys.run, step_flushStep_eq hi hns hs, Option.some_bind]
    exact hrun

/-- The goroutines, none stuck, run one after another, all end. -/
theorem drains (n : ℕ) :
    ∀ S : Sys, S.flushers.length = n → S.Live → (∀ f ∈ S.flushers, f.stuck S.cancelled = false) →
      ∃ steps S', (∀ a ∈ steps, ∃ i, a = Action.flushStep i) ∧ Sys.run lz env S steps = some S' ∧
        S'.Live ∧ S'.flushers = [] ∧ S'.cancelled = S.cancelled ∧ S'.held = S.held := by
  induction n with
  | zero => exact fun S hn hl _ => ⟨[], S, nofun, rfl, hl, List.length_eq_zero.mp hn, rfl, rfl⟩
  | succ n ih =>
    intro S hn hl hns
    obtain ⟨f, hf⟩ : ∃ f, S.flushers[0]? = some f :=
      Option.isSome_iff_exists.mp (by simp [List.getElem?_eq_getElem (show 0 < S.flushers.length by omega)])
    obtain ⟨m, S₁, hrun₁, hl₁, hfl, hc, hheld₁⟩ :=
      @runs_out lz env 0 _ S f rfl hl hf (hns f (List.getElem?_mem hf))
    rw [List.eraseIdx_zero] at hfl
    obtain ⟨steps, S', hsteps, hrun₂, hl', hnil, hc', hheld'⟩ := ih S₁ (by simp [hfl, hn]) hl₁
      fun g hg => hc ▸ hns g (List.mem_of_mem_tail (hfl ▸ hg))
    refine ⟨List.replicate m (.flushStep 0) ++ steps, S', fun a ha => ?_, ?_, hl', hnil,
      hc'.trans hc, hheld'.trans hheld₁⟩
    · rcases List.mem_append.mp ha with ha | ha
      · exact ⟨0, List.eq_of_mem_replicate ha⟩
      · exact hsteps a ha
    · rw [run_append, hrun₁, Option.some_bind]
      exact hrun₂

end

end Sys

/-! ## No wait is for ever, while the `ctx` lives -/

/-- From every state an interleaving reaches in which no goroutine is still in `Flush` under a done
`ctx`, the flush goroutines can be run to their ends, each of their steps possible; the previous
cache is then empty, and a writer waiting in `SetWhenClear` goes through. -/
theorem run_can_finish_flushes {lz : Lz4} {env : WriteEnv} {s0 : SegmentId} {acts : List Action}
    {S : Sys} (hrun : Sys.run lz env (Sys.init s0) acts = some S)
    (hctx : ∀ f ∈ S.flushers, f.stage = .flush → f.segId ∉ S.cancelled) :
    ∃ steps S', (∀ a ∈ steps, ∃ i, a = Action.flushStep i) ∧ Sys.run lz env S steps = some S' ∧
      S'.flushers = [] ∧ S'.disk.prevCache = none ∧
      ∀ oc h, S.held = some (some oc, h) → (S'.step lz env .setWhenClear).isSome := by
  obtain ⟨steps, S', hsteps, hrun', hl, hnil, -, hheld⟩ := Sys.drains _ S rfl
    ((Sys.live_init s0).run hrun) fun f hf => Flusher.stuck_eq_false (hctx f hf)
  -- With no goroutine left, nothing holds the previous cache.
  have hprev : S'.disk.prevCache = none := by
    cases hp : S'.disk.prevCache with
    | none => rfl
    | some p =>
      obtain ⟨f, hf, -⟩ := hl.prev (by rw [hp]; rfl)
      rw [hnil] at hf
      cases hf
  refine ⟨steps, S', hsteps, hrun', hnil, hprev, fun oc h hh => ?_⟩
  simp [Sys.step, hheld, hh, Disk.setWhenClear, hprev]

/-- Block 0 written and sealed, its goroutine through `Flush`, and the sealing call's `ctx` then
cancelled; block 0 written again and sealed: the writer now waits in `SetWhenClear` while the
first goroutine has not cleared the previous cache. -/
def sealWait : List Action :=
  [.write ⟨⟨0, 1⟩, onesBlock⟩, .replace, .setWhenClear, .flushStep 0, .cancel 0,
    .write ⟨⟨0, 1⟩, twosBlock⟩, .replace]

/-- After `sealWait` the writer's `SetWhenClear` waits, and the goroutine, past `Flush` when its
`ctx` was cancelled, runs on and lets it through. -/
theorem run_can_finish_flushes_after_sealWait :
    ∃ S, Sys.run Lz4.never countingEnv (Sys.init 0) sealWait = some S ∧
      S.step Lz4.never countingEnv .setWhenClear = none ∧ S.cancelled = [0] ∧
      (∀ f ∈ S.flushers, f.stage = .flush → f.segId ∉ S.cancelled) ∧
      ∃ steps S', (∀ a ∈ steps, ∃ i, a = Action.flushStep i) ∧
        Sys.run Lz4.never countingEnv S steps = some S' ∧ S'.flushers = [] ∧
        S'.disk.prevCache = none ∧
        ∀ oc h, S.held = some (some oc, h) → (S'.step Lz4.never countingEnv .setWhenClear).isSome := by
  obtain ⟨S, hrun⟩ : ∃ S, Sys.run Lz4.never countingEnv (Sys.init 0) sealWait = some S :=
    Option.isSome_iff_exists.mp (by rfl)
  have hwait : (Sys.run Lz4.never countingEnv (Sys.init 0) sealWait).all (fun S =>
      (S.step Lz4.never countingEnv .setWhenClear).isNone && S.cancelled == [0] &&
        S.flushers.all fun f => !f.stuck S.cancelled) = true := by rfl
  rw [hrun] at hwait
  simp only [Option.all_some, Bool.and_eq_true, Option.isNone_iff_eq_none, beq_iff_eq,
    List.all_eq_true, Bool.not_eq_true'] at hwait
  obtain ⟨⟨hnone, hc⟩, hns⟩ := hwait
  have hctx : ∀ f ∈ S.flushers, f.stage = .flush → f.segId ∉ S.cancelled := fun f hf hst hmem =>
    Bool.eq_false_iff.mp (hns f hf) (Flusher.stuck_iff.mpr ⟨hst, hmem⟩)
  exact ⟨S, hrun, hnone, hc, hctx, run_can_finish_flushes hrun hctx⟩

/-! ## A done `ctx` wedges the disk -/

namespace Sys

section

variable {lz : Lz4} {env : WriteEnv} {S S' : Sys}

/-- No step drops a goroutine in `Flush` under a done `ctx`, nor brings its `ctx` back. -/
theorem stuck_step {f : Flusher} (hf : f ∈ S.flushers) (hst : f.stage = .flush)
    (hc : f.segId ∈ S.cancelled) {a : Action} (hs : S.step lz env a = some S') :
    f ∈ S'.flushers ∧ f.segId ∈ S'.cancelled := by
  cases a with
  | write data => obtain ⟨_, -, -, rfl⟩ := step_write hs; exact ⟨hf, hc⟩
  | zero rng => obtain ⟨_, -, -, rfl⟩ := step_zero hs; exact ⟨hf, hc⟩
  | replace =>
    obtain ⟨-, hr⟩ := step_replace hs
    split at hr
    · subst hr; exact ⟨hf, hc⟩
    · split_ifs at hr <;> subst hr <;> exact ⟨hf, hc⟩
  | setWhenClear =>
    obtain ⟨_, _, -, -, rfl⟩ := step_setWhenClear hs
    exact ⟨List.mem_append_left _ hf, hc⟩
  | flushStep i =>
    obtain ⟨g, d', g', hi, -, rfl⟩ := step_flushStep hs
    -- The goroutine that stepped is another: this one takes no step.
    have hne : f ≠ g := by
      rintro rfl
      rw [step_flushStep_stuck hi (Flusher.stuck_iff.mpr ⟨hst, hc⟩)] at hs
      cases hs
    exact ⟨mem_setOrDrop_of_ne hi hf hne, hc⟩
  | readStart rng => obtain ⟨_, rfl⟩ := step_readStart hs; exact ⟨hf, hc⟩
  | readStep i => obtain ⟨_, _, _, rfl⟩ := step_readStep hs; exact ⟨hf, hc⟩
  | cancel seg => obtain rfl := step_cancel hs; exact ⟨hf, List.mem_cons_of_mem _ hc⟩

/-- Nor does any interleaving. -/
theorem stuck_run {f : Flusher} (hf : f ∈ S.flushers) (hst : f.stage = .flush)
    (hc : f.segId ∈ S.cancelled) {acts : List Action} (hrun : Sys.run lz env S acts = some S') :
    f ∈ S'.flushers ∧ f.segId ∈ S'.cancelled := by
  induction acts generalizing S with
  | nil =>
    cases hrun
    exact ⟨hf, hc⟩
  | cons a as ih =>
    obtain ⟨S₁, h₁, hrun⟩ := Option.bind_eq_some.mp hrun
    obtain ⟨hf₁, hc₁⟩ := stuck_step hf hst hc h₁
    exact ih hf₁ hc₁ hrun

end

end Sys

/-- Over every interleaving of valid actions from a new volume, with the id drawn at each seal
above the last and its creator made: once the `ctx` of a goroutine still in `Flush` is done, the
goroutine never ends, whatever runs after; its creator stays in the previous cache, and every
`SetWhenClear` waits for ever, so no seal goes through again. -/
theorem run_cancelled_flush_blocks_seals {lz : Lz4} (hlz : lz.Inverts) {env : WriteEnv}
    {s0 : SegmentId} {acts more : List Action} (hacts : ∀ a ∈ acts ++ more, a.Valid)
    (hrel : reliable env s0 (acts ++ more).length = true) {S S' : Sys}
    (hrun : Sys.run lz env (Sys.init s0) acts = some S) (hmore : Sys.run lz env S more = some S')
    {f : Flusher} (hf : f ∈ S.flushers) (hst : f.stage = .flush) (hc : f.segId ∈ S.cancelled) :
    f ∈ S'.flushers ∧ S'.disk.prevCache = some f.oc ∧ S'.step lz env .setWhenClear = none := by
  obtain ⟨hf', -⟩ := Sys.stuck_run hf hst hc hmore
  have hco := (Sys.coherent_init lz s0).run (Sys.inv_init s0) hlz hacts hrel
    (by rw [Sys.run_append, hrun, Option.some_bind]; exact hmore)
  have hprev := (hco.pending f hf' (by rw [hst]; rfl)).1
  refine ⟨hf', hprev, ?_⟩
  simp only [Sys.step]
  split
  · simp [Disk.setWhenClear, hprev]
  · rfl

/-- Block 0 written and sealed, and the sealing call's `ctx` cancelled before its goroutine's
`Flush`. -/
def cancelledSeal : List Action :=
  [.write ⟨⟨0, 1⟩, onesBlock⟩, .replace, .setWhenClear, .cancel 0]

/-- After `cancelledSeal`, block 0 written again and the creator replaced: the writer holds the
sealed creator, and its `SetWhenClear` waits behind the goroutine that cannot `Flush`. -/
theorem run_cancelled_flush_blocks_seals_after_cancelledSeal :
    Lz4.never.Inverts ∧
      (∀ a ∈ cancelledSeal ++ [Action.write ⟨⟨0, 1⟩, twosBlock⟩, .replace], a.Valid) ∧
      reliable countingEnv 0 (cancelledSeal ++ [Action.write ⟨⟨0, 1⟩, twosBlock⟩, .replace]).length =
        true ∧
      ∃ S S' f, Sys.run Lz4.never countingEnv (Sys.init 0) cancelledSeal = some S ∧
        Sys.run Lz4.never countingEnv S [Action.write ⟨⟨0, 1⟩, twosBlock⟩, .replace] = some S' ∧
        S'.held.isSome ∧ f ∈ S.flushers ∧ f.stage = .flush ∧ f.segId ∈ S.cancelled ∧
        f ∈ S'.flushers ∧ S'.disk.prevCache = some f.oc ∧
        S'.step Lz4.never countingEnv .setWhenClear = none := by
  have hacts : ∀ a ∈ cancelledSeal ++ [Action.write ⟨⟨0, 1⟩, twosBlock⟩, .replace], a.Valid := by
    simp [cancelledSeal, Action.Valid, RangeData.Wf, onesBlock, twosBlock]
  have hrel : reliable countingEnv 0
      (cancelledSeal ++ [Action.write ⟨⟨0, 1⟩, twosBlock⟩, .replace]).length = true := by decide
  obtain ⟨S, hrun⟩ : ∃ S, Sys.run Lz4.never countingEnv (Sys.init 0) cancelledSeal = some S :=
    Option.isSome_iff_exists.mp (by rfl)
  obtain ⟨S', hrun'⟩ : ∃ S', Sys.run Lz4.never countingEnv (Sys.init 0)
      (cancelledSeal ++ [Action.write ⟨⟨0, 1⟩, twosBlock⟩, .replace]) = some S' :=
    Option.isSome_iff_exists.mp (by rfl)
  have hmore : Sys.run Lz4.never countingEnv S [Action.write ⟨⟨0, 1⟩, twosBlock⟩, .replace] = some S' := by
    rwa [Sys.run_append, hrun, Option.some_bind] at hrun'
  have hf : (Sys.run Lz4.never countingEnv (Sys.init 0) cancelledSeal).any (fun S =>
      match S.flushers with
      | [f] => f.stuck S.cancelled
      | _ => false) = true := by rfl
  have hheld : (Sys.run Lz4.never countingEnv (Sys.init 0)
      (cancelledSeal ++ [Action.write ⟨⟨0, 1⟩, twosBlock⟩, .replace])).any (fun S => S.held.isSome) =
        true := by rfl
  rw [hrun, Option.any_some] at hf
  rw [hrun', Option.any_some] at hheld
  split at hf
  case h_2 => cases hf
  rename_i f hfl
  obtain ⟨hst, hc⟩ := Flusher.stuck_iff.mp hf
  have hmem : f ∈ S.flushers := by rw [hfl]; exact List.mem_singleton_self f
  exact ⟨Lz4.never_inverts, hacts, hrel, S, S', f, hrun, hmore, hheld, hmem, hst, hc,
    run_cancelled_flush_blocks_seals Lz4.never_inverts hacts hrel hrun hmore hmem hst hc⟩

/-- Over every interleaving of valid actions from a new volume, with the id drawn at each seal
above the last and its creator made, `SetWhenClear` lets one flush through at a time: at most one
goroutine is before its `Clear`, and the previous cache holds a creator exactly when one is, that
goroutine's. -/
theorem run_one_flush_before_clear {lz : Lz4} (hlz : lz.Inverts) {env : WriteEnv} {s0 : SegmentId}
    {acts : List Action} (hacts : ∀ a ∈ acts, a.Valid) (hrel : reliable env s0 acts.length = true)
    {S : Sys} (hrun : Sys.run lz env (Sys.init s0) acts = some S) :
    S.flushers.countP (fun f => f.stage.pending) ≤ 1 ∧
      ∀ p, S.disk.prevCache = some p ↔ ∃ f ∈ S.flushers, f.stage.pending = true ∧ f.oc = p := by
  have hc := (Sys.coherent_init lz s0).run (Sys.inv_init s0) hlz hacts hrel hrun
  refine ⟨hc.single, fun p => ⟨fun hp => ?_, fun ⟨f, hf, hpf, hfp⟩ => hfp ▸ (hc.pending f hf hpf).1⟩⟩
  obtain ⟨f, hf, hpf⟩ := ((Sys.live_init s0).run hrun).prev (by rw [hp]; rfl)
  exact ⟨f, hf, hpf, Option.some.inj ((hc.pending f hf hpf).1.symm.trans hp)⟩

/-- Block 0 written and sealed, its goroutine run through its `Clear`; block 0 written again and
sealed: two goroutines in flight, the first in `FindDeleted`. -/
def sealOverlap : List Action :=
  [.write ⟨⟨0, 1⟩, onesBlock⟩, .replace, .setWhenClear] ++ List.replicate 4 (.flushStep 0) ++
    [.write ⟨⟨0, 1⟩, twosBlock⟩, .replace, .setWhenClear]

/-- After `sealOverlap` two goroutines are in flight, and one of them is before its `Clear`. -/
theorem run_one_flush_before_clear_in_sealOverlap :
    Lz4.never.Inverts ∧ (∀ a ∈ sealOverlap, a.Valid) ∧
      reliable countingEnv 0 sealOverlap.length = true ∧
      ∃ S, Sys.run Lz4.never countingEnv (Sys.init 0) sealOverlap = some S ∧
        S.flushers.length = 2 ∧ S.flushers.countP (fun f => f.stage.pending) ≤ 1 ∧
        ∀ p, S.disk.prevCache = some p ↔ ∃ f ∈ S.flushers, f.stage.pending = true ∧ f.oc = p := by
  have hacts : ∀ a ∈ sealOverlap, a.Valid := by
    simp [sealOverlap, Action.Valid, RangeData.Wf, onesBlock, twosBlock]
  have hrel : reliable countingEnv 0 sealOverlap.length = true := by decide
  obtain ⟨S, hrun⟩ : ∃ S, Sys.run Lz4.never countingEnv (Sys.init 0) sealOverlap = some S :=
    Option.isSome_iff_exists.mp (by rfl)
  have hlen : (Sys.run Lz4.never countingEnv (Sys.init 0) sealOverlap).any
      (fun S => S.flushers.length == 2) = true := by rfl
  rw [hrun, Option.any_some, beq_iff_eq] at hlen
  exact ⟨Lz4.never_inverts, hacts, hrel, S, hrun, hlen,
    run_one_flush_before_clear Lz4.never_inverts hacts hrel hrun⟩

end Disk

end Lsvd
