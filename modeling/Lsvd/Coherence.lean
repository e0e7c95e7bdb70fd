import Lsvd.Concurrency

/-!
# Read-your-writes over every interleaving

`Sys.view` is the layered lookup `ReadExtent` performs, with the creator the writer holds between
the two halves of `closeSegmentAsync` put where `SetWhenClear` puts it: the current creator, the
held creator, the previous creator, then the extent map and the store (`layers`). Over every
interleaving of valid actions from a new volume, with an id to draw and a creator made at each
seal, it is the latest acknowledged write of every block (`run_view_eq_acked`). Outside the window
between the two halves the writer holds no creator, and this is the disk's own `view`.

The invariant (`Sys.Coherent`) follows each creator from the writer to the map. A write changes the
current creator as it changes the device (`Shows.writeExtent`); the replacing moves the creator to
the held slot and `SetWhenClear` moves it to the previous cache, neither changing the layers. At
most one goroutine is before `Clear` (`Stage.pending`), and its creator is the previous one; what it
has done so far is `Flusher.Ready`. Its upload is to a segment no entry uses, so no block of the
store changes; `UpdateBatch` makes the map show what the creator holds (`storeView_install`), so
`Clear` takes the previous creator away with the map showing the same (`Flusher.pending_step`). A
cleanup removes segments no entry uses and a read changes only the caches, and neither changes a
layer (`Flusher.done_step`).

The layers also settle the race of a read with the cleanup (`cleanup_removes_segment_being_read`):
the request the read resolved has bytes, since with none the layers would show zeros where the
block written shows, and the cleanup removes its segment before the read opens it.
-/

namespace Lsvd

namespace Disk

/-- The creators `ocs` in order over `below`: block `l` from the first that holds it, else from
`below`. -/
def layers (lz : Lz4) : List SegmentCreator → (ℕ → Block) → ℕ → Block
  | [], below => below
  | oc :: ocs, below => fun l => (oc.lookup lz l).getD (layers lz ocs below l)

/-- The previous creator over the map and the store: the layers under the writer's creators. -/
def prevView (lz : Lz4) (d : Disk) : ℕ → Block :=
  layers lz d.prevCache.toList (d.storeView lz)

section

variable {lz : Lz4} {below : ℕ → Block}

@[simp] theorem layers_nil : layers lz [] below = below := rfl

@[simp] theorem layers_cons (oc : SegmentCreator) (ocs : List SegmentCreator) (l : ℕ) :
    layers lz (oc :: ocs) below l = (oc.lookup lz l).getD (layers lz ocs below l) := rfl

theorem layers_append (ocs ocs' : List SegmentCreator) :
    layers lz (ocs ++ ocs') below = layers lz ocs (layers lz ocs' below) := by
  induction ocs with
  | nil => rfl
  | cons oc ocs ih => funext l; simp only [List.cons_append, layers_cons, ih]

/-- A creator that holds nothing hides nothing. -/
@[simp] theorem layers_empty : layers lz [({} : SegmentCreator)] below = below := rfl

/-- A creator over itself shows what it shows over what is below. -/
theorem layers_self (oc : SegmentCreator) :
    layers lz [oc] (layers lz [oc] below) = layers lz [oc] below := by
  funext l
  simp only [layers_cons, layers_nil]
  cases oc.lookup lz l <;> rfl

/-- `Shows` is one layer. -/
theorem shows_iff {oc : SegmentCreator} {dev : ℕ → Block} :
    Shows lz oc below dev ↔ layers lz [oc] below = dev :=
  ⟨funext, fun h l => congrFun h l⟩

/-- `view` is the current creator, then the previous one, over the map and the store. -/
theorem view_eq_layers (d : Disk) :
    d.view lz = layers lz d.curOC.toList (d.prevView lz) := by
  funext l
  rw [view_eq, cacheLookup, prevView]
  rcases d with ⟨_ | c, _, _ | p, _⟩ <;>
    simp only [Option.none_bind, Option.some_bind, Option.toList_none, Option.toList_some,
      layers_cons, layers_nil, Option.getD_none]
  all_goals cases c.lookup lz l <;> rfl

/-- A change of objects in a segment that no entry uses changes no block of the store. -/
theorem storeView_of_unmapped {d d' : Disk} {s : SegmentId} (hm : d'.lba2pba = d.lba2pba)
    (hwf : d.lba2pba.Wf) (hobj : ∀ t, t ≠ s → d'.objects t = d.objects t)
    (hno : ∀ l loc, d.lba2pba.Maps l loc → loc.segment ≠ s) : d'.storeView lz = d.storeView lz :=
  funext fun l => storeView_congr (fun loc hl => hobj _ (hno l loc hl)) hwf (hm ▸ hwf)
    fun loc => by rw [hm]

/-- Two disks with the same previous creator and the same blocks in the store have the same
layers under the writer's creators. -/
theorem prevView_congr {d d' : Disk} (hp : d'.prevCache = d.prevCache)
    (hsv : d'.storeView lz = d.storeView lz) : d'.prevView lz = d.prevView lz := by
  rw [prevView, prevView, hp, hsv]

end

/-! ## The goroutine before `Clear` -/

/-- What a goroutine before `Clear` has done towards its blocks being read from the map: from
`Create` on, its segment uploaded with its creator's bytes and its batch its creator's records
there; at `Clear`, the map and the store show what its creator holds. -/
def Flusher.Ready (lz : Lz4) (d : Disk) (f : Flusher) : Prop :=
  match f.stage with
  | .create es _ | .update es =>
    es = f.oc.locations f.segId ∧ d.objects f.segId = some f.oc.segmentBytes
  | .clear => Shows lz f.oc (d.storeView lz) (d.storeView lz)
  | _ => True

section

variable {α : Type} {l : List α} {i : ℕ} {a : α} (p : α → Bool)

/-- Replacing the `i`-th element, or dropping it, changes the count by the two. -/
theorem countP_setOrDrop (h : l[i]? = some a) (x : Option α) :
    (setOrDrop l i x).countP p + (if p a then 1 else 0) = l.countP p + x.toList.countP p := by
  conv_rhs => rw [eq_take_cons_drop h]
  simp only [setOrDrop, List.countP_append, List.countP_cons]
  omega

/-- In a list with at most one element where `p` holds, and it holds of the `i`-th, it holds of
no other. -/
theorem not_of_countP_le_one (h : l[i]? = some a) (hc : l.countP p ≤ 1) (ha : p a = true) {b : α}
    (hb : b ∈ l.take i ∨ b ∈ l.drop (i + 1)) : p b = false := by
  rw [eq_take_cons_drop h, List.countP_append, List.countP_cons, if_pos ha] at hc
  by_contra hpb
  have hpos : ∀ l' : List α, b ∈ l' → 0 < l'.countP p := fun l' hl' =>
    List.countP_pos_iff.mpr ⟨b, hl', by simpa using hpb⟩
  rcases hb with hb | hb
  · have := hpos _ hb; omega
  · have := hpos _ hb; omega

end

section

variable {lz : Lz4} {d d' : Disk} {f : Flusher} {f' : Option Flusher}

/-- What a goroutine has done survives a change that keeps the store's blocks and the objects of
the segments not installed. -/
theorem Flusher.Ready.congr {g : Flusher} (h : g.Ready lz d) (hok : g.Ok d)
    (hobj : d.s.installed g.segId = false → d'.objects g.segId = d.objects g.segId)
    (hsv : d'.storeView lz = d.storeView lz) : g.Ready lz d' := by
  obtain ⟨oc, segId, stage⟩ := g
  cases stage with
  | create es stats => exact ⟨h.1, (hobj hok.2.2.1).trans h.2⟩
  | update es => exact ⟨h.1, (hobj hok.2.1).trans h.2⟩
  | clear =>
    show Shows lz oc (d'.storeView lz) (d'.storeView lz)
    rw [hsv]
    exact h
  | flush | findDeleted | remove _ => trivial

/-- A step of the goroutine before `Clear` keeps the layers under the writer's creators, and the
goroutine, while still before `Clear`, has done its next part. -/
theorem Flusher.pending_step (hg : GcInv d) (hf : f.Ok d) (hp : f.stage.pending = true)
    (hprev : d.prevCache = some f.oc) (hoc : f.oc.Wf lz) (hrec : f.oc.RecordsOk)
    (hr : f.Ready lz d) (hs : f.step d = some (d', f')) :
    d'.prevView lz = d.prevView lz ∧ ∀ g ∈ f'.toList, g.oc = f.oc ∧
      (g.stage.pending = true → d'.prevCache = some g.oc ∧ g.Ready lz d') := by
  obtain ⟨oc, segId, stage⟩ := f
  dsimp only at hprev hoc hrec ⊢
  cases stage with
  | flush =>
    -- The upload is to a segment not registered, which no entry uses.
    obtain ⟨-, -, hns⟩ := hf
    obtain ⟨idx, -, rfl, rfl⟩ := Flusher.step_flush rfl hs
    refine ⟨prevView_congr rfl (storeView_of_unmapped rfl hg.1 (fun t ht => if_neg ht) ?_),
      fun g hg => ?_⟩
    · rintro l _ ⟨x, hx, -, rfl⟩ he
      exact hns (he ▸ hg.2.1.registered x hx)
    · obtain rfl := List.mem_singleton.mp hg
      exact ⟨rfl, fun _ => ⟨hprev, rfl, if_pos rfl⟩⟩
  | create es stats =>
    obtain ⟨rfl, rfl⟩ := Flusher.step_create rfl hs
    refine ⟨rfl, fun g hg => ?_⟩
    obtain rfl := List.mem_singleton.mp hg
    exact ⟨rfl, fun _ => ⟨hprev, hr⟩⟩
  | update es =>
    -- The map now shows what the creator holds; the creator over it shows the same.
    obtain ⟨rfl, hobj⟩ : es = oc.locations segId ∧ d.objects segId = some oc.segmentBytes := hr
    obtain ⟨-, -, hreg, -⟩ := hf
    obtain ⟨rfl, rfl⟩ := Flusher.step_update rfl hs
    have hsv : (d.install (oc.locations segId) segId).storeView lz = layers lz [oc] (d.storeView lz) :=
      funext (storeView_install d hg.1 hg.2.1 hreg hoc hrec hobj)
    refine ⟨?_, fun g hg => ?_⟩
    · rw [prevView, prevView, hsv]
      change layers lz d.prevCache.toList _ = _
      rw [hprev]
      exact layers_self oc
    · obtain rfl := List.mem_singleton.mp hg
      exact ⟨rfl, fun _ => ⟨hprev, shows_iff.mpr (by rw [hsv]; exact layers_self oc)⟩⟩
  | clear =>
    -- What the previous creator showed, the map shows.
    obtain ⟨rfl, rfl⟩ := Flusher.step_clear rfl hs
    refine ⟨?_, fun g hg => ?_⟩
    · change d.storeView lz = layers lz d.prevCache.toList (d.storeView lz)
      rw [hprev]
      exact (shows_iff.mp hr).symm
    · obtain rfl := List.mem_singleton.mp hg
      exact ⟨rfl, fun h => by cases h⟩
  | findDeleted | remove _ => cases hp

/-- A step of a goroutine past `Clear` keeps the previous cache, the store's blocks, and the
objects of the segments not installed, and the goroutine stays past `Clear`. -/
theorem Flusher.done_step (hg : GcInv d) (hf : f.Ok d) (hp : f.stage.pending = false)
    (hs : f.step d = some (d', f')) :
    d'.prevCache = d.prevCache ∧ d'.storeView lz = d.storeView lz ∧
      (∀ t, d.s.installed t = false → d'.objects t = d.objects t) ∧
      ∀ g ∈ f'.toList, g.stage.pending = false := by
  obtain ⟨oc, segId, stage⟩ := f
  cases stage with
  | findDeleted =>
    obtain ⟨rfl, rfl⟩ := Flusher.step_findDeleted rfl hs
    exact ⟨rfl, rfl, fun _ _ => rfl, fun g hg => by rw [List.mem_singleton.mp hg]; rfl⟩
  | remove segs =>
    rcases Flusher.step_remove rfl hs with ⟨rfl, rfl⟩ | ⟨i, is, idx, rfl, -, rfl, rfl⟩
    · exact ⟨rfl, rfl, fun _ _ => rfl, fun g hg => nomatch hg⟩
    · -- The segment removed is installed and holds no entry.
      obtain ⟨hii, hno⟩ := hf i (List.mem_cons_self _ _)
      have hne : ∀ t, d.s.installed t = false → t ≠ i := fun t ht he => by simp [he, hii] at ht
      exact ⟨rfl, storeView_of_unmapped rfl hg.1 (fun t ht => if_neg ht) hno,
        fun t ht => if_neg (hne t ht), fun g hg => by rw [List.mem_singleton.mp hg]; rfl⟩
  | flush | create _ _ | update _ | clear => cases hp

end

/-! ## The invariant of every interleaving -/

namespace Sys

/-- The creator the writer holds between the halves of `closeSegmentAsync`. -/
def heldOC (S : Sys) : List SegmentCreator :=
  match S.held with
  | some (some oc, _) => [oc]
  | _ => []

/-- The layered lookup of `ReadExtent`, with the creator the writer holds between the current
creator and the previous one, where `SetWhenClear` puts it. -/
def view (lz : Lz4) (S : Sys) : ℕ → Block :=
  layers lz (S.disk.curOC.toList ++ S.heldOC) (S.disk.prevView lz)

/-- What every interleaving keeps of the layers: they show the acknowledged writes. -/
structure Coherent (lz : Lz4) (S : Sys) : Prop where
  view : S.view lz = S.acked
  cur : ∃ oc, S.disk.curOC = some oc ∧ oc.Wf lz
  held : ∀ oc h, S.held = some (oc, h) → ∃ c, oc = some c ∧ c.Wf lz
  /-- A goroutine before `Clear` has its creator, well formed, in the previous cache, and has
  done its part so far. -/
  pending : ∀ f ∈ S.flushers, f.stage.pending = true → S.disk.prevCache = some f.oc ∧
    f.oc.Wf lz ∧ f.oc.RecordsOk ∧ f.Ready lz S.disk
  /-- At most one goroutine is before `Clear`. -/
  single : S.flushers.countP (fun f => f.stage.pending) ≤ 1

section

variable {lz : Lz4} {env : WriteEnv} {S S' : Sys}

/-- Holding no creator, the layers are the disk's `view`. -/
theorem view_of_held_none (h : S.held = none) : S.view lz = S.disk.view lz := by
  simp only [Sys.view, heldOC, h, List.append_nil, Disk.view_eq_layers]

/-- Two states with the same creators and the same layers under them have the same layers. -/
theorem view_congr (hcur : S'.disk.curOC = S.disk.curOC) (hheld : S'.held = S.held)
    (hpv : S'.disk.prevView lz = S.disk.prevView lz) : S'.view lz = S.view lz := by
  simp only [Sys.view, heldOC, hcur, hheld, hpv]

/-- A new volume. -/
theorem coherent_init (lz : Lz4) (s0 : SegmentId) : (init s0).Coherent lz :=
  ⟨rfl, ⟨{}, rfl, fun _ h => absurd h (List.not_mem_nil _)⟩, fun _ _ h => (by cases h),
    fun _ h => absurd h (List.not_mem_nil _), Nat.zero_le _⟩

/-- The current creator is well formed. -/
theorem Coherent.cur_wf (hc : S.Coherent lz) {oc : SegmentCreator} (hcur : S.disk.curOC = some oc) :
    oc.Wf lz := by
  obtain ⟨oc', hcur', hoc⟩ := hc.cur
  rw [hcur] at hcur'
  cases hcur'
  exact hoc

/-- A write to the current creator changes the layers as it changes the acknowledged writes. -/
theorem Coherent.write (hc : S.Coherent lz) (hlz : lz.Inverts) {data : RangeData} (hd : data.Wf)
    (hs : S.step lz env (.write data) = some S') : S'.Coherent lz := by
  obtain ⟨oc, hheld, hcur, rfl⟩ := step_write hs
  have hoc := hc.cur_wf hcur
  have hv := hc.view
  refine { hc with
    view := ?_
    cur := ⟨_, rfl, (SegmentCreator.writeExtent_spec hlz hoc hd).1⟩ }
  simp only [Sys.view, heldOC, hheld, hcur, Option.toList_some, List.append_nil] at hv ⊢
  exact shows_iff.mp ((shows_iff.mpr hv).writeExtent hlz hoc hd)

/-- `ZeroBlocks` on the current creator changes the layers as it changes the acknowledged
writes. -/
theorem Coherent.zero (hc : S.Coherent lz) {rng : Extent}
    (hs : S.step lz env (.zero rng) = some S') : S'.Coherent lz := by
  obtain ⟨oc, hheld, hcur, rfl⟩ := step_zero hs
  have hoc := hc.cur_wf hcur
  have hv := hc.view
  refine { hc with
    view := ?_
    cur := ⟨_, rfl, (SegmentCreator.zeroBlocks_spec hoc rng).1⟩ }
  simp only [Sys.view, heldOC, hheld, hcur, Option.toList_some, List.append_nil] at hv ⊢
  exact shows_iff.mp ((shows_iff.mpr hv).zeroBlocks hoc rng)

/-- The writer's replacing, with an id to draw and its creator made, moves the creator to the held
slot under an empty one: the layers are kept. -/
theorem Coherent.replace (hc : S.Coherent lz) {seq : SegmentId}
    (hseq : env.nextSeq S.disk.curSeq = some seq) (hok : env.createOk seq = true)
    (hs : S.step lz env .replace = some S') : S'.Coherent lz ∧ S'.disk.curSeq = seq := by
  obtain ⟨hheld, hS⟩ := step_replace hs
  rw [hseq] at hS
  dsimp only at hS
  rw [if_pos hok] at hS
  subst hS
  obtain ⟨oc, hcur, hoc⟩ := hc.cur
  have hv := hc.view
  refine ⟨{ hc with
    view := ?_
    cur := ⟨{}, rfl, fun _ h => absurd h (List.not_mem_nil _)⟩
    held := fun oc' _ hh => ?_ }, rfl⟩
  · simp only [Sys.view, heldOC, hheld, hcur, Option.toList_some, List.append_nil] at hv ⊢
    rw [layers_append, layers_empty]
    exact hv
  · obtain ⟨rfl, -⟩ := Prod.mk.inj (Option.some.inj hh)
    exact ⟨oc, hcur, hoc⟩

/-- `SetWhenClear` moves the held creator to the empty previous cache, with its goroutine the
only one before `Clear`: the layers are kept. -/
theorem Coherent.setWhenClear (hc : S.Coherent lz) (h : S.Inv)
    (hs : S.step lz env .setWhenClear = some S') : S'.Coherent lz := by
  obtain ⟨oc, segId, hheld, hprev, rfl⟩ := step_setWhenClear hs
  obtain ⟨c, hc', hwf⟩ := hc.held _ _ hheld
  cases hc'
  -- With the previous cache empty, every goroutine is past `Clear`.
  have hnone : ∀ f ∈ S.flushers, f.stage.pending = false := fun f hf => by
    by_contra hp
    have := (hc.pending f hf (by simpa using hp)).1
    rw [hprev] at this
    cases this
  refine ⟨Eq.trans ?_ hc.view, hc.cur, fun _ _ hh => (by cases hh), fun f hf hp => ?_, ?_⟩
  · simp only [Sys.view, heldOC, hheld, prevView, hprev, Option.toList_some, Option.toList_none,
      List.append_nil, layers_append, layers_nil]
    rfl
  · rcases List.mem_append.mp hf with hf | hf
    · rw [hnone f hf] at hp
      cases hp
    · obtain rfl := List.mem_singleton.mp hf
      exact ⟨rfl, hwf, (h.held _ _ hheld).2 _ rfl, trivial⟩
  · rw [List.countP_append, List.countP_eq_zero.mpr fun f hf => by simp [hnone f hf]]
    simp [Stage.pending]

/-- A goroutine's step keeps the layers: before `Clear` by what it has done, after `Clear` because
it removes only segments no entry uses. -/
theorem Coherent.flushStep (hc : S.Coherent lz) (h : S.Inv) {i : ℕ} {f : Flusher}
    (hi : S.flushers[i]? = some f) {d' : Disk} {f' : Option Flusher}
    (hs : f.step S.disk = some (d', f')) :
    Coherent lz { S with disk := d', flushers := setOrDrop S.flushers i f' } := by
  have hf : f ∈ S.flushers := List.getElem?_mem hi
  have hspec := Flusher.step_spec h.gc (h.flushers f hf) hs
  have hcount := countP_setOrDrop (fun g : Flusher => g.stage.pending) hi f'
  have hcur : ∃ oc, d'.curOC = some oc ∧ oc.Wf lz := by
    obtain ⟨oc, h1, h2⟩ := hc.cur
    exact ⟨oc, hspec.curOC.trans h1, h2⟩
  cases hp : f.stage.pending with
  | true =>
    obtain ⟨hprev, hoc, hrec, hr⟩ := hc.pending f hf hp
    obtain ⟨hpv, hself⟩ := Flusher.pending_step h.gc (h.flushers f hf) hp hprev hoc hrec hr hs
    refine ⟨Eq.trans ?_ hc.view, hcur, hc.held, fun g hg hgp => ?_, ?_⟩
    · exact view_congr hspec.curOC rfl hpv
    · rcases mem_setOrDrop hg with hg | hg
      · obtain ⟨hgo, hgp'⟩ := hself g hg
        obtain ⟨hprev', hready⟩ := hgp' hgp
        exact ⟨hprev', hgo ▸ hoc, hgo ▸ hrec, hready⟩
      · rw [not_of_countP_le_one _ hi hc.single hp hg] at hgp
        cases hgp
    · have hle : f'.toList.countP (fun g : Flusher => g.stage.pending) ≤ 1 :=
        (List.countP_le_length _).trans (by cases f' <;> simp)
      simp only [hp, if_true] at hcount
      have := hc.single
      show (setOrDrop S.flushers i f').countP _ ≤ 1
      omega
  | false =>
    obtain ⟨hprev, hsv, hobj, hself⟩ := Flusher.done_step h.gc (h.flushers f hf) hp hs
    refine ⟨Eq.trans ?_ hc.view, hcur, hc.held, fun g hg hgp => ?_, ?_⟩
    · exact view_congr hspec.curOC rfl (prevView_congr hprev hsv)
    · rcases mem_setOrDrop hg with hg | hg
      · rw [hself g hg] at hgp
        cases hgp
      · have hgS : g ∈ S.flushers := hg.elim (List.mem_of_mem_take ·) (List.mem_of_mem_drop ·)
        obtain ⟨hprev', hoc, hrec, hr⟩ := hc.pending g hgS hgp
        exact ⟨hprev.trans hprev', hoc, hrec, hr.congr (h.flushers g hgS) (hobj _) hsv⟩
    · have h0 : f'.toList.countP (fun g : Flusher => g.stage.pending) = 0 :=
        List.countP_eq_zero.mpr fun g hg => by simp [hself g hg]
      simp only [hp, Bool.false_eq_true, if_false, add_zero] at hcount
      have := hc.single
      show (setOrDrop S.flushers i f').countP _ ≤ 1
      omega

/-- Every valid action keeps the layers and uses up at most one id. -/
theorem Coherent.step (hc : S.Coherent lz) (h : S.Inv) (hlz : lz.Inverts) {a : Action}
    (ha : a.Valid) {n : ℕ} (hrel : reliable env S.disk.curSeq (n + 1) = true)
    (hs : S.step lz env a = some S') : S'.Coherent lz ∧ reliable env S'.disk.curSeq n = true := by
  by_cases hrep : a = .replace
  · subst hrep
    obtain ⟨seq, hseq, -, hok, hrest⟩ := reliable_succ.mp hrel
    obtain ⟨hc', hcs⟩ := hc.replace hseq hok hs
    exact ⟨hc', hcs ▸ hrest⟩
  refine ⟨?_, (h.curSeq_step hrep hs) ▸ reliable_mono hrel⟩
  cases a with
  | write data => exact hc.write hlz ha hs
  | zero rng => exact hc.zero hs
  | replace => exact absurd rfl hrep
  | setWhenClear => exact hc.setWhenClear h hs
  | flushStep i =>
    obtain ⟨f, d', f', hi, hf, rfl⟩ := step_flushStep hs
    exact hc.flushStep h hi hf
  | readStart rng =>
    obtain ⟨rs, rfl⟩ := step_readStart hs
    exact { hc with }
  | readStep i =>
    obtain ⟨c, o, rs, rfl⟩ := step_readStep hs
    exact { hc with }
  | cancel seg =>
    obtain rfl := step_cancel hs
    exact { hc with }

/-- Every interleaving of valid actions, with an id to draw and a creator made at each seal, keeps
the layers. -/
theorem Coherent.run (hc : S.Coherent lz) (h : S.Inv) (hlz : lz.Inverts) {acts : List Action}
    (hacts : ∀ a ∈ acts, a.Valid) (hrel : reliable env S.disk.curSeq acts.length = true)
    (hrun : Sys.run lz env S acts = some S') : S'.Coherent lz := by
  induction acts generalizing S with
  | nil =>
    cases hrun
    exact hc
  | cons a as ih =>
    rw [Sys.run, Option.bind_eq_some] at hrun
    obtain ⟨S₁, h₁, hrun⟩ := hrun
    have ha := hacts a (List.mem_cons_self _ _)
    obtain ⟨hc₁, hrel₁⟩ := hc.step h hlz ha hrel h₁
    -- The id drawn next is above `curSeq`.
    have henv : ∀ s', env.nextSeq S.disk.curSeq = some s' → S.disk.curSeq < s' := fun s' hs' => by
      obtain ⟨s'', hs'', hlt, -⟩ := reliable_succ.mp hrel
      rw [hs', Option.some.injEq] at hs''
      exact hs'' ▸ hlt
    exact ih hc₁ (h.step henv ha h₁) (fun b hb => hacts b (List.mem_cons_of_mem _ hb)) hrel₁ hrun

end

end Sys

/-! ## Read-your-writes -/

/-- Over every interleaving of valid actions from a new volume, with an id to draw and a creator
made at each seal, the layered lookup with the creator the writer holds gives the latest
acknowledged write of every block; when the writer holds none, so does the disk's own `view`,
the lookup `ReadExtent` performs. -/
theorem run_view_eq_acked {lz : Lz4} (hlz : lz.Inverts) {env : WriteEnv} {s0 : SegmentId}
    {acts : List Action} (hacts : ∀ a ∈ acts, a.Valid) (hrel : reliable env s0 acts.length = true)
    {S : Sys} (hrun : Sys.run lz env (Sys.init s0) acts = some S) :
    (∀ l, S.view lz l = S.acked l) ∧ (S.held = none → ∀ l, S.disk.view lz l = S.acked l) := by
  have hc := (Sys.coherent_init lz s0).run (Sys.inv_init s0) hlz hacts hrel hrun
  exact ⟨congrFun hc.view, fun hh l =>
    (congrFun (Sys.view_of_held_none hh) l).symm.trans (congrFun hc.view l)⟩

/-- The race of the cleanup with a read keeps the layers: at its end they show what was
acknowledged. -/
theorem run_view_eq_acked_in_gcRace :
    Lz4.never.Inverts ∧ (∀ a ∈ gcRace, a.Valid) ∧ reliable countingEnv 0 gcRace.length = true ∧
      ∃ S, Sys.run Lz4.never countingEnv (Sys.init 0) gcRace = some S ∧
        (∀ l, S.view Lz4.never l = S.acked l) ∧
        (S.held = none → ∀ l, S.disk.view Lz4.never l = S.acked l) := by
  have hrel : reliable countingEnv 0 gcRace.length = true := by decide
  obtain ⟨S, hrun⟩ : ∃ S, Sys.run Lz4.never countingEnv (Sys.init 0) gcRace = some S :=
    Option.isSome_iff_exists.mp (by rfl)
  exact ⟨Lz4.never_inverts, gcRace_valid, hrel, S, hrun,
    run_view_eq_acked Lz4.never_inverts gcRace_valid hrel hrun⟩

/-- After the race, segment 0 is gone from the store while the read still holds a request into it,
and the read's next step fails to open it. -/
theorem cleanup_removes_segment_being_read :
    ∃ S, Sys.run Lz4.never countingEnv (Sys.init 0) gcRace = some S ∧ S.disk.objects 0 = none ∧
      ∃ r req, S.readers = [r] ∧ r.reqs = [req] ∧ req.pe.segment = 0 ∧ req.pe.size ≠ 0 ∧
        readPartialExtent Lz4.never (s3Reads S.disk.objects) S.disk req.pe req.extents r.data =
          .error (.openSegment 0) := by
  -- Up to the read: the writer idle, the creators empty, the map one entry, over block 0 in
  -- segment 0, and block 0 acknowledged not zero.
  obtain ⟨S₁, h₁⟩ : ∃ S, Sys.run Lz4.never countingEnv (Sys.init 0) (gcRace.take 9) = some S :=
    Option.isSome_iff_exists.mp (by rfl)
  have ht₁ : (Sys.run Lz4.never countingEnv (Sys.init 0) (gcRace.take 9)).any (fun S =>
      S.held.isNone && S.readers.isEmpty && decide (S.disk.curOC = some {}) &&
        S.disk.prevCache.isNone && decide (S.acked 0 ≠ emptyBlock) &&
        match S.disk.lba2pba.entries with
        | [x] => decide (x.usable = ⟨0, 1⟩) && decide (x.segment = 0)
        | _ => false) = true := by rfl
  rw [h₁] at ht₁
  simp only [Option.any_some, Bool.and_eq_true, Option.isNone_iff_eq_none, List.isEmpty_iff,
    decide_eq_true_eq] at ht₁
  obtain ⟨⟨⟨⟨⟨hheld, hrd⟩, hcur⟩, hprev⟩, hacked⟩, hmap⟩ := ht₁
  split at hmap
  case h_2 => cases hmap
  rename_i x hx
  simp only [Bool.and_eq_true, decide_eq_true_eq] at hmap
  obtain ⟨hxu, hxs⟩ := hmap
  -- The entry has bytes: else the layers would show zeros at block 0.
  have hc := (Sys.coherent_init Lz4.never 0).run (Sys.inv_init 0) Lz4.never_inverts
    (fun a ha => gcRace_valid a (List.mem_of_mem_take ha)) (by decide) h₁
  have hsz : x.size ≠ 0 := by
    intro h0
    apply hacked
    rw [← congrFun hc.view 0, Sys.view_of_held_none hheld, Disk.view_eq]
    simp [Disk.cacheLookup, hcur, hprev, SegmentCreator.lookup, SegmentCreator.lookupIn,
      Disk.storeView, ExtentMap.find, hx, hxu, Extent.mem_iff, storedBlock, h0]
  -- The read starts with one request, for that entry.
  have h₂ : S₁.step Lz4.never countingEnv (.readStart ⟨0, 1⟩) = some { S₁ with
      readers := [⟨RangeData.new ⟨0, 1⟩, [⟨{ x with usable := ⟨0, 1⟩ }, [⟨0, 1⟩]⟩], S₁.disk⟩] } := by
    have hres : S₁.disk.lba2pba.resolve ⟨0, 1⟩ = [{ x with usable := ⟨0, 1⟩ }] := by
      simp only [ExtentMap.resolve, hx, List.filterMap_cons, List.filterMap_nil, hxu]
      rfl
    simp [Sys.step, fillFromWriteCache, hcur, SegmentCreator.fillExtent, holesLeft,
      fillingFromPrevWriteCache, hprev, hrd, readRequests, RangeData.new, hres, addRequest, hsz]
  -- The whole race: segment 0 removed, with no segment opened and nothing cached.
  obtain ⟨S, hS⟩ : ∃ S, Sys.run Lz4.never countingEnv (Sys.init 0) gcRace = some S :=
    Option.isSome_iff_exists.mp (by rfl)
  have ht : (Sys.run Lz4.never countingEnv (Sys.init 0) gcRace).any (fun S =>
      (S.disk.objects 0).isNone && S.disk.extentCache.entries.isEmpty &&
        S.disk.openSegments.isEmpty) = true := by rfl
  rw [hS] at ht
  simp only [Option.any_some, Bool.and_eq_true, Option.isNone_iff_eq_none, List.isEmpty_iff] at ht
  obtain ⟨⟨hobj, hcache⟩, hopen⟩ := ht
  -- The writer's and the goroutine's steps after the read's start leave the reader.
  have hrs : S.readers = [⟨RangeData.new ⟨0, 1⟩, [⟨{ x with usable := ⟨0, 1⟩ }, [⟨0, 1⟩]⟩], S₁.disk⟩] := by
    have hsplit : gcRace = gcRace.take 9 ++ .readStart ⟨0, 1⟩ :: gcRace.drop 10 := rfl
    rw [hsplit, Sys.run_append, h₁, Option.some_bind, Sys.run, h₂, Option.some_bind] at hS
    exact Sys.run_readers (by decide) hS
  refine ⟨S, hS, hobj, _, _, hrs, rfl, hxs, hsz, ?_⟩
  simp [readPartialExtent, fetchExtent, ExtentCache.readExtent, hcache, lruGet, hopen, s3Reads,
    hobj, hxs]

end Disk

end Lsvd
