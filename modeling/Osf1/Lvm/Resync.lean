import Osf1.Lvm.Writes

/-!
# The resync of an extent: `lv_syncx`, and the code it drives

`lv_syncx` sends one request for each track of an extent. The request is first a read of a copy that is not
stale, and then a write of what has been read to the copies of `lx_syncmsk`.
-/

set_option autoImplicit false

namespace Osf1.Lvm

open List

section Resync

open Osf1.Computation

/-- A write whose physical requests are in a ring.  For the record: the copies that it has failed
at or leaves out, and the copies that have received it. -/
structure Inflight where
  ring : List Pbuf
  lost : Mask
  received : Mask

/-- Where the request for track `k` is.  `good` records that what is read comes from a copy that is
not stale, and `error` is its `B_ERROR`. -/
inductive Phase
  | idle
  | toRead (k : ℕ)
  | reading (k : ℕ) (pb : Pbuf) (good : Bool)
  | readDone (k : ℕ) (error good : Bool)
  | onReadyQ (k : ℕ) (good : Bool)
  | toWrite (k : ℕ) (good : Bool)
  | writing (k : ℕ) (good : Bool) (w : Inflight)
  | writeDone (k : ℕ) (error : Bool)

/-- The caller: no resync is in progress, or track `k` is next, or the request before track `k`
has failed. -/
inductive Client
  | stopped
  | going (k : ℕ)
  | failed (k : ℕ)

/-- An extent that is resynced.  For the record: the copies that tracks have been written to, and
the copies that a write has failed at since the resync began. -/
structure Resync where
  policy : Policy
  rdonly : Bool
  vol : Volume
  copies : Copies
  client : Client
  phase : Phase
  writes : List Inflight
  written : Mirror → Finset ℕ
  failed : Mask

/-- What happens.  A physical request ends with a result; `order` tells which one of a ring it is,
and `curxfs` how many transfers are active on each volume.  What the last user of a buffer has left
in its `pb_miravoid` is `left`. -/
inductive ResyncEvent
  | start (k : ℕ)
  | scheduleRead (curxfs : ℕ → ℤ)
  | readEnd (result : Result) (curxfs : ℕ → ℤ)
  | terminate
  | initiateWrite
  | scheduleWrite (left : Mask)
  | writeEnd (order : ℕ) (failed : Bool)
  | otherWrite (left : Mask)
  | otherEnd (i order : ℕ) (failed : Bool)
  | saDone (mirbad : Mask)
  | setMissing (missing : ℕ → Bool)
  | setRdonly (rdonly : Bool)

inductive ResyncTurn
  | panic
  | undefined
  | state (s : Resync)

def ResyncTurn.state? : ResyncTurn → Option Resync
  | .state s => some s
  | _ => none

/-- The requests of `lv_syncx`, for a read and for a write. -/
def resyncBuf (read : Bool) : Buf := ⟨read, true, false, ∅⟩

/-- Any other write. -/
def otherBuf : Buf := ⟨false, false, false, ∅⟩

/-- The copies that are to be written.
SRC: lvm/lv_strategy.c:508-525 -/
def syncmask (v : Volume) (x : Copies) : Mask :=
  (v.mirrors.filter fun m =>
    (x.ext m).pvnum.any (fun pv => !v.missing pv) && (x.ext m).stale).toFinset

/-- A request of the resync ends: without an error, the caller goes on with the next track.
SRC: lvm/lv_lvsubr.c:1483-1508 -/
def Resync.finish (s : Resync) (k : ℕ) (error : Bool) : Resync :=
  { s with
    phase := .idle
    client :=
      if error then .failed (k + 1)
      else if (k + 1 : ℤ) = s.vol.trkPerExt then .stopped else .going (k + 1) }

/-- The caller sends the request for track `k`. -/
def Client.sends (n : ℤ) : Client → ℕ → Bool
  | .stopped, k => k = 0
  | .going j, k => k = j
  | .failed j, k => k = 0 || (k = j && decide ((k : ℤ) < n))

/-- `lv_initiate` of a resync read.
SRC: lvm/lv_strategy.c:496-547 -/
def initiateRead (s : Resync) (k : ℕ) : ResyncTurn :=
  let lext := s.copies.lext
  if lext.synctrk ≠ -1 ∧ lext.synctrk ≠ k - 1 then .panic
  else
    let lext : Lextent :=
      if lext.synctrk = -1 then ⟨k, syncmask s.vol s.copies, ∅⟩ else { lext with synctrk := k }
    if lext.syncmsk = ∅ then
      let lext := if (k : ℤ) = s.vol.trkPerExt - 1 then { lext with synctrk := -1 } else lext
      .state ({ s with copies := { s.copies with lext := lext } }.finish k false)
    else .state { s with copies := { s.copies with lext := lext }, phase := .toRead k }

/-- The read of a copy that has been chosen, if there is one. -/
def beginRead (s : Resync) (k : ℕ) (o : Pbuf × Option Mirror) : ResyncTurn :=
  match o with
  | (pb, some m) => .state { s with phase := .reading k pb (!(s.copies.ext m).stale) }
  | (_, none) => .state { s with phase := .readDone k true false }

/-- SRC: lvm/lv_schedule.c:580-607, 854-887 -/
def scheduleRead (s : Resync) (k : ℕ) (curxfs : ℕ → ℤ) : ResyncTurn :=
  let pb : Pbuf := ⟨0, ∅, ∅, ∅, ∅, false⟩
  match s.policy with
  | .parallel =>
    beginRead s k (lvBestmir s.vol (resyncBuf true) s.copies curxfs s.vol.mirrors pb (-1) none)
  | .sequential => beginRead s k (lvNextmir s.vol (resyncBuf true) s.copies s.vol.mirrors pb)

/-- SRC: lvm/lv_schedule.c:685-716, 946-975 -/
def readEnd (s : Resync) (k : ℕ) (pb : Pbuf) (good : Bool) (result : Result) (curxfs : ℕ → ℤ) :
    ResyncTurn :=
  match result with
  | .ok => .state { s with phase := .readDone k false good }
  | .error media =>
    let pb := if media then { pb with mirbad := insert pb.mirror pb.mirbad } else pb
    match s.policy with
    | .parallel =>
      beginRead s k (lvBestmir s.vol (resyncBuf true) s.copies curxfs s.vol.mirrors pb (-1) none)
    | .sequential => .undefined

/-- `lv_terminate` of a resync request.
SRC: lvm/lv_strategy.c:650-681 -/
def terminate (s : Resync) : Option ResyncTurn :=
  let reset (s : Resync) : Resync :=
    { s with copies := { s.copies with lext := { s.copies.lext with synctrk := -1 } } }
  match s.phase with
  | .readDone k error good =>
    if error then some (.state ((reset s).finish k true))
    else some (.state { s with phase := .onReadyQ k good })
  | .writeDone k error =>
    if s.copies.lext.synctrk = s.vol.trkPerExt - 1 ∨ error then
      some (.state ((reset s).finish k error))
    else some (.state (s.finish k error))
  | _ => none

/-- `lv_initiate` of a resync write.
SRC: lvm/lv_strategy.c:453-464, 548-553 -/
def initiateWrite (s : Resync) (k : ℕ) (good : Bool) : ResyncTurn :=
  if s.rdonly then .state (s.finish k true)
  else if s.copies.lext.synctrk ≠ k then .panic
  else .state { s with phase := .toWrite k good }

/-- A write is begun, unless there is no copy to write to.  The copies on missing volumes are left
out.
SRC: lvm/lv_schedule.c:461-568, 854-887 -/
def beginWrite (policy : Policy) (v : Volume) (lb : Buf) (x : Copies) (left : Mask) :
    Option Inflight :=
  match policy with
  | .parallel =>
    let t := setup v lb x v.mirrors ⟨∅, ∅, ∅, []⟩
    if t.ioQ = [] then none
    else
      some ⟨t.ioQ.map fun m => ⟨m, t.donemask, ∅, t.actmask, t.avoidmask, false⟩, t.avoidmask, ∅⟩
  | .sequential =>
    match lvNextmir v lb x v.mirrors ⟨0, ∅, ∅, ∅, left, false⟩ with
    | (_, none) => none
    | (pb, some _) => some ⟨[pb], pb.miravoid, ∅⟩

/-- A physical request of a write ends: others are outstanding or begun, or it is the last one. -/
inductive Ended
  | more (w : Inflight)
  | last (pb : Pbuf) (lost received : Mask)

/-- SRC: lvm/lv_schedule.c:619-675, 906-934 -/
def endOne (policy : Policy) (v : Volume) (lb : Buf) (x : Copies) (w : Inflight) (order : ℕ)
    (failed : Bool) : Option Ended :=
  match w.ring.rotate order with
  | [] => none
  | pb :: rest =>
    let lost := if failed then insert pb.mirror w.lost else w.lost
    let received := if failed then w.received else insert pb.mirror w.received
    let pb := { pb with error := failed
                        mirbad := if failed then insert pb.mirror pb.mirbad else pb.mirbad }
    match policy with
    | .parallel =>
      match rest with
      | [] => some (.last pb lost received)
      | q :: rest => some (.more ⟨{ q with mirbad := q.mirbad ∪ pb.mirbad } :: rest, lost, received⟩)
    | .sequential =>
      match lvNextmir v lb x v.mirrors pb with
      | (pb, some _) => some (.more ⟨[{ pb with error := false }], lost ∪ pb.miravoid, received⟩)
      | (pb, none) => some (.last pb (lost ∪ pb.miravoid) received)

/-- A write of the resync ends.  The copies that have received it have the track of a good read.
The bits `PX_CHANGING` are reset when the status area is written. -/
def writeEnd (s : Resync) (k : ℕ) (good : Bool) : Ended → ResyncTurn
  | .more w => .state { s with phase := .writing k good w }
  | .last pb lost received =>
    match lvWriteDone s.vol (resyncBuf false) true s.copies pb with
    | .panic => .panic
    | .done error x => .state { s with
        copies := x
        phase := .writeDone k error
        written := fun m => if good && decide (m ∈ received) then insert k (s.written m) else s.written m
        failed := s.failed ∪ lost }

/-- Another write ends. -/
def otherEnd (s : Resync) (i : ℕ) : Ended → ResyncTurn
  | .more w => .state { s with writes := s.writes.set i w }
  | .last pb lost _ =>
    match lvWriteDone s.vol otherBuf true s.copies pb with
    | .panic => .panic
    | .done _ x => .state { s with
        copies := x
        writes := s.writes.eraseIdx i
        failed := s.failed ∪ lost }

def Resync.step (s : Resync) : ResyncEvent → Option ResyncTurn
  | .start k =>
    match s.phase with
    | .idle =>
      if s.client.sends s.vol.trkPerExt k then
        some (initiateRead (if k = 0 then { s with written := fun _ => ∅, failed := ∅ } else s) k)
      else none
    | _ => none
  | .scheduleRead curxfs =>
    match s.phase with
    | .toRead k => some (Lvm.scheduleRead s k curxfs)
    | _ => none
  | .readEnd result curxfs =>
    match s.phase with
    | .reading k pb good => some (Lvm.readEnd s k pb good result curxfs)
    | _ => none
  | .terminate => Lvm.terminate s
  | .initiateWrite =>
    match s.phase with
    | .onReadyQ k good => some (Lvm.initiateWrite s k good)
    | _ => none
  | .scheduleWrite left =>
    match s.phase with
    | .toWrite k good =>
      match beginWrite s.policy s.vol (resyncBuf false) s.copies left with
      | none => some (.state { s with phase := .writeDone k true })
      | some w => some (.state { s with phase := .writing k good w })
    | _ => none
  | .writeEnd order failed =>
    match s.phase with
    | .writing k good w =>
      (endOne s.policy s.vol (resyncBuf false) s.copies w order failed).map (Lvm.writeEnd s k good)
    | _ => none
  | .otherWrite left =>
    match beginWrite s.policy s.vol otherBuf s.copies left with
    | none => none
    | some w => some (.state { s with writes := s.writes ++ [w] })
  | .otherEnd i order failed =>
    s.writes[i]?.bind fun w =>
      (endOne s.policy s.vol otherBuf s.copies w order failed).map (Lvm.otherEnd s i)
  | .saDone mirbad => some (.state { s with copies := lvStaleppDone false mirbad s.copies })
  | .setMissing missing => some (.state { s with vol := { s.vol with missing := missing } })
  | .setRdonly rdonly => some (.state { s with rdonly := rdonly })

/-- An extent before its first resync, with copies in any state. -/
structure Resync.Init (s : Resync) : Prop where
  synctrk : s.copies.lext.synctrk = -1
  client : s.client = .stopped
  phase : s.phase = .idle
  writes : s.writes = []
  tracks : 0 < s.vol.trkPerExt

/-- The runs of an extent. -/
def resyncs : System Resync ResyncEvent where
  init := Resync.Init
  step s ev t := (s.step ev).bind ResyncTurn.state? = some t

end Resync

/-!
## The masks of the writes to an extent that is resynced

What `lv_stalepp` does to the copies and to the masks of a resync, for a write of the resync and for
any other write, and what the buffers of a write in progress know of the copies it goes to.
-/

section ResyncMasks

variable {v : Volume} {lb : Buf} {x x' : Copies} {m : Mirror} {pb : Pbuf} {w : Inflight}
  {act avoid left lost received : Mask} {order : ℕ} {failed error : Bool}

section Stalepp

/-- A buffer when the last physical request has ended. -/
def Pbuf.closed (pb : Pbuf) : Pbuf := { pb with mirbad := pb.mirbad ∪ pb.miravoid }

theorem lext_lvStaleppDone (vgsaFailed : Bool) (mirbad : Mask) (x : Copies) :
    (lvStaleppDone vgsaFailed mirbad x).lext = x.lext := by
  cases vgsaFailed
  · rfl
  · rfl

theorem markBad_lext {vgsaFailed : Bool} {ext : Mirror → Extent} {mirbad : Mask} {lext : Lextent}
    {e : Bool} (h : markBad vgsaFailed ext mirbad error lext = .done e x') :
    e = error ∧ x'.lext = lext ∧ Marks ext mirbad x'.ext := by
  obtain ⟨x₁, hrun, hmarks⟩ := markBad_spec vgsaFailed ext mirbad error lext
  have hlext : x₁.lext = lext := by
    obtain ⟨-, rfl⟩ := Finish.done.inj hrun
    split
    · rfl
    · exact lext_lvStaleppDone ..
  rw [hrun] at h
  obtain ⟨rfl, rfl⟩ := Finish.done.inj h
  exact ⟨rfl, hlext, hmarks⟩

theorem marked_subset : marked pb ⊆ pb.mirbad := by
  unfold marked spare
  split
  · split
    · exact Finset.erase_subset ..
    · exact Finset.Subset.refl _
  · exact Finset.Subset.refl _

theorem mem_marked (hm : m ∈ pb.mirbad)
    (hspare : ¬(pb.mirdone = pb.mirbad ∧ firstMask pb.miract = some m)) : m ∈ marked pb := by
  unfold marked
  split
  · next hall =>
    unfold spare
    cases hfirst : firstMask pb.miract with
    | none => exact hm
    | some c =>
      refine Finset.mem_erase.mpr ⟨?_, hm⟩
      rintro rfl
      exact hspare ⟨hall, hfirst⟩
  · exact hm

/-- How another write than one of a resync changes the copies. -/
structure OtherDone (x x' : Copies) (bad : Mask) : Prop where
  ext : Marks x.ext bad x'.ext
  synctrk : x'.lext.synctrk = x.lext.synctrk
  syncmsk : x'.lext.syncmsk = x.lext.syncmsk
  syncerr : x'.lext.syncerr = x.lext.syncerr ∪ bad

theorem lvWriteDone_other (v : Volume) (x : Copies) (pb : Pbuf) :
    ∃ e x', lvWriteDone v otherBuf true x pb = .done e x' ∧
      OtherDone x x' (marked pb.closed) := by
  by_cases hbad : pb.mirbad ∪ pb.miravoid = ∅
  · have hnone : marked pb.closed = ∅ := by
      have hsub : marked pb.closed ⊆ pb.mirbad ∪ pb.miravoid := marked_subset
      rw [hbad] at hsub
      exact Finset.subset_empty.mp hsub
    have hnot : ¬(pb.mirbad ∪ pb.miravoid ≠ ∅ ∨ otherBuf.resync) :=
      not_or.mpr ⟨not_not.mpr hbad, Bool.false_ne_true⟩
    refine ⟨_, _, if_neg hnot, fun m => ⟨rfl, ?_⟩, rfl, rfl, ?_⟩
    · rw [hnone]
      simp
    · rw [hnone, Finset.union_empty]
  · have hrun : lvWriteDone v otherBuf true x pb = lvStalepp v otherBuf true x pb.closed := if_pos (.inl hbad)
    have hother : ¬(otherBuf.resync = true) := Bool.false_ne_true
    rw [hrun, lvStalepp_eq]
    simp only [if_neg hother]
    split
    · obtain ⟨x₁, h₁, -⟩ := markBad_spec true x.ext (marked pb.closed)
        (decide (pb.closed.mirdone = pb.closed.mirbad))
        { x.lext with syncerr := x.lext.syncerr ∪ marked pb.closed }
      obtain ⟨-, hlext, hmarks⟩ := markBad_lext h₁
      exact ⟨_, x₁, h₁, hmarks, by rw [hlext], by rw [hlext], by rw [hlext]⟩
    · next hnone =>
      rw [not_not] at hnone
      obtain ⟨x₁, h₁, -⟩ := markBad_spec true x.ext (marked pb.closed)
        (decide (pb.closed.mirdone = pb.closed.mirbad)) x.lext
      obtain ⟨-, hlext, hmarks⟩ := markBad_lext h₁
      refine ⟨_, x₁, h₁, hmarks, by rw [hlext], by rw [hlext], ?_⟩
      rw [hlext, hnone, Finset.union_empty]

/-- How a write of a resync changes the copies, when it does not end the resync. -/
structure ResyncMarks (x x' : Copies) (pb : Pbuf) : Prop where
  ext : Marks x.ext (marked pb) x'.ext
  synctrk : x'.lext.synctrk = x.lext.synctrk
  syncmsk : x'.lext.syncmsk = stillSyncing x pb
  syncerr : x'.lext.syncerr = x.lext.syncerr ∪ marked pb ∪ pb.miravoid

theorem lvWriteDone_resync (h : ¬Finishes v (resyncBuf false) x pb.closed) :
    ∃ e x', lvWriteDone v (resyncBuf false) true x pb = .done e x' ∧
      ResyncMarks x x' pb.closed := by
  have hrun : lvWriteDone v (resyncBuf false) true x pb =
      lvStalepp v (resyncBuf false) true x pb.closed := if_pos (.inr rfl)
  have hresync : (resyncBuf false).resync = true := rfl
  rw [hrun, lvStalepp_eq]
  simp only [if_pos hresync]
  let lext : Lextent := { x.lext with
    syncerr := x.lext.syncerr ∪ marked pb.closed ∪ pb.closed.miravoid
    syncmsk := stillSyncing x pb.closed }
  have hmark (e : Bool) : ∃ e' x', markBad true x.ext (marked pb.closed) e lext = .done e' x' ∧
      ResyncMarks x x' pb.closed := by
    obtain ⟨x₁, h₁, -⟩ := markBad_spec true x.ext (marked pb.closed) e lext
    obtain ⟨-, hlext, hmarks⟩ := markBad_lext h₁
    exact ⟨e, x₁, h₁, hmarks, by rw [hlext], by rw [hlext], by rw [hlext]⟩
  split
  · exact hmark true
  · next hsync =>
    have hlast : ¬x.lext.synctrk = v.trkPerExt - 1 := fun heq => h ⟨rfl, hsync, rfl, heq⟩
    have hfalse : ¬(!(resyncBuf false).recovery &&
        decide (x.lext.synctrk = v.trkPerExt - 1)) = true := by
      simp [hlast]
    rw [if_neg hfalse]
    exact hmark _

/-- How the last write of a resync changes the copies. -/
structure ResyncEnds (x x' : Copies) (pb : Pbuf) : Prop where
  ext : Clears x.ext (stillSyncing x pb) x'.ext
  synctrk : x'.lext.synctrk = x.lext.synctrk
  syncmsk : x'.lext.syncmsk = ∅

theorem lvWriteDone_ends (h : Finishes v (resyncBuf false) x pb.closed)
    (hstale : ∀ m ∈ stillSyncing x pb.closed, (x.ext m).pvnum ≠ none ∧ (x.ext m).stale = true) :
    ∃ e x', lvWriteDone v (resyncBuf false) true x pb = .done e x' ∧
      ResyncEnds x x' pb.closed := by
  have hrun : lvWriteDone v (resyncBuf false) true x pb =
      lvStalepp v (resyncBuf false) true x pb.closed := if_pos (.inr rfl)
  rw [hrun]
  rcases lvStalepp_clears true h with ⟨-, m, hm, hbad⟩ | ⟨-, x₁, h₁, hclears⟩
  · obtain ⟨hpv, hs⟩ := hstale m hm
    rcases hbad with hnone | hfresh
    · exact absurd hnone hpv
    · rw [hs] at hfresh
      cases hfresh
  · have hlext : x₁.lext.synctrk = x.lext.synctrk ∧ x₁.lext.syncmsk = ∅ := by
      obtain ⟨hresync, hsync, hrecovery, hlast⟩ := h
      rw [lvStalepp_eq] at h₁
      simp only [hresync, hsync, hrecovery, hlast, if_true, if_false, Bool.not_false,
        Bool.true_and, decide_true] at h₁
      split at h₁
      · cases h₁
      · obtain ⟨-, rfl⟩ := Finish.done.inj h₁
        exact ⟨hlast.symm, rfl⟩
    exact ⟨_, x₁, h₁, hclears, hlext.1, hlext.2⟩

end Stalepp

section Ring

/-- The masks of a parallel write: the copies it goes to have received it, or the write has failed
at them, or their requests are outstanding. -/
structure Tracked (act avoid : Mask) (w : Inflight) : Prop where
  same : ∀ pb ∈ w.ring, pb.miract = act ∧ pb.miravoid = avoid
  cover : ∀ c ∈ act, (∃ pb ∈ w.ring, pb.mirror = c) ∨ c ∈ w.received ∨ ∃ pb ∈ w.ring, c ∈ pb.mirbad
  lost : ∀ c, c ∈ w.lost ↔ c ∈ avoid ∨ ∃ pb ∈ w.ring, c ∈ pb.mirbad

/-- The masks of the last request of a parallel write. -/
structure TrackedLast (act avoid : Mask) (pb : Pbuf) (lost received : Mask) : Prop where
  same : pb.miract = act ∧ pb.miravoid = avoid
  cover : ∀ c ∈ act, c ∈ received ∨ c ∈ pb.mirbad
  lost : lost = pb.mirbad ∪ pb.miravoid

theorem tracked_beginWrite (h : beginWrite .parallel v lb x left = some w) :
    Tracked ((v.mirrors.filter (usable v lb x)).toFinset) ((v.mirrors.filter (gone v x)).toFinset)
      w := by
  rw [beginWrite, setup_eq] at h
  split at h
  · cases h
  · cases h
    refine ⟨fun pb hpb => ?_, fun c hc => ?_, fun c => ?_⟩
    · obtain ⟨m, -, rfl⟩ := mem_map.mp hpb
      exact ⟨rfl, rfl⟩
    · exact .inl ⟨_, mem_map_of_mem (mem_toFinset.mp hc), rfl⟩
    · refine ⟨.inl, fun h => h.resolve_right ?_⟩
      rintro ⟨pb, hpb, hbad⟩
      obtain ⟨m, -, rfl⟩ := mem_map.mp hpb
      exact Finset.notMem_empty c hbad

theorem Tracked.endOne (h : Tracked act avoid w) {e : Ended}
    (he : endOne .parallel v lb x w order failed = some e) :
    (∃ w', e = .more w' ∧ Tracked act avoid w') ∨
      ∃ pb lost received, e = .last pb lost received ∧ TrackedLast act avoid pb lost received := by
  have hmem (pb : Pbuf) : pb ∈ w.ring ↔ pb ∈ w.ring.rotate order := mem_rotate.symm
  obtain ⟨hsame, hcover, hlost⟩ := h
  simp only [hmem] at hsame hcover hlost
  rw [Lvm.endOne] at he
  generalize w.ring.rotate order = ring at *
  cases ring with
  | nil => cases he
  | cons pb rest =>
    obtain ⟨hact, havoid⟩ := hsame pb (mem_cons_self ..)
    let bad := if failed then insert pb.mirror pb.mirbad else pb.mirbad
    have hbad (c : Mirror) : c ∈ bad ↔ c ∈ pb.mirbad ∨ (failed = true ∧ c = pb.mirror) := by
      cases failed with
      | true => simp [bad, or_comm]
      | false => simp [bad]
    have hreceived (c : Mirror) :
        c ∈ (if failed then w.received else insert pb.mirror w.received) ↔
          c ∈ w.received ∨ (failed = false ∧ c = pb.mirror) := by
      cases failed with
      | true => simp
      | false => simp [or_comm]
    have hlost' (c : Mirror) : c ∈ (if failed then insert pb.mirror w.lost else w.lost) ↔
        c ∈ w.lost ∨ (failed = true ∧ c = pb.mirror) := by
      cases failed with
      | true => simp [or_comm]
      | false => simp
    have hdone : failed = true ∨ failed = false := Bool.eq_false_or_eq_true failed
    simp only [mem_cons, exists_eq_or_imp] at hcover hlost
    cases rest with
    | nil =>
      cases he
      refine .inr ⟨_, _, _, rfl, ⟨hact, havoid⟩, fun c hc => ?_, ?_⟩
      · show c ∈ (if failed then w.received else _) ∨ c ∈ bad
        rw [hbad, hreceived]
        rcases hcover c hc with (rfl | ⟨_, hnil, -⟩) | hc | hc | ⟨_, hnil, -⟩
        · rcases hdone with hf | hf
          · exact .inr (.inr ⟨hf, rfl⟩)
          · exact .inl (.inr ⟨hf, rfl⟩)
        · cases hnil
        · exact .inl (.inl hc)
        · exact .inr (.inl hc)
        · cases hnil
      · ext c
        rw [Finset.mem_union, hlost', hbad, hlost, havoid]
        tauto
    | cons q rest =>
      cases he
      let q' : Pbuf := { q with mirbad := q.mirbad ∪ bad }
      have hq (c : Mirror) : c ∈ q'.mirbad ↔ c ∈ q.mirbad ∨ c ∈ bad := Finset.mem_union
      simp only [mem_cons, exists_eq_or_imp] at hcover hlost
      refine .inl ⟨_, rfl, fun r hr => ?_, fun c hc => ?_, fun c => ?_⟩
      · rcases mem_cons.mp hr with rfl | hr
        · exact hsame q (by simp)
        · exact hsame r (by simp [hr])
      · show (∃ r ∈ q' :: rest, r.mirror = c) ∨
          c ∈ (if failed then w.received else _) ∨ ∃ r ∈ q' :: rest, c ∈ r.mirbad
        simp only [mem_cons, exists_eq_or_imp]
        rw [hreceived, hq, hbad]
        have hmirror : q'.mirror = q.mirror := rfl
        rcases hcover c hc with (rfl | hc) | hc | hc
        · rcases hdone with hf | hf
          · exact .inr (.inr (.inl (.inr (.inr ⟨hf, rfl⟩))))
          · exact .inr (.inl (.inr ⟨hf, rfl⟩))
        · exact .inl hc
        · exact .inr (.inl (.inl hc))
        · rcases hc with hc | hc | hc
          · exact .inr (.inr (.inl (.inr (.inl hc))))
          · exact .inr (.inr (.inl (.inl hc)))
          · exact .inr (.inr (.inr hc))
      · show c ∈ (if failed then insert pb.mirror w.lost else w.lost) ↔ c ∈ avoid ∨ ∃ r ∈ q' :: rest, c ∈ r.mirbad
        simp only [mem_cons, exists_eq_or_imp]
        rw [hlost', hq, hbad, hlost]
        apply iff_of_eq
        ac_rfl

end Ring

end ResyncMasks

end Osf1.Lvm
