import Osf1.Lvm.Reads
import Osf1.Lvm.Resync

/-!
# A resync makes a copy fresh only when it has been written

While a resync is in progress, `lx_syncmsk` without `lx_syncerr` is a set of stale copies to which all the
tracks so far have been written, and at which no write has failed.
-/

set_option autoImplicit false

namespace Osf1.Lvm

open Osf1.Computation List Option

section Conditions

/-- A write that is lost at all the copies it comes to leaves its first copy alone, and this copy
is being resynced. -/
def Spares (s : Resync) (pb : Pbuf) : Prop :=
  pb.mirdone = pb.mirbad ∪ pb.miravoid ∧ s.copies.lext.synctrk ≠ -1 ∧
    ∃ m ∈ s.copies.lext.syncmsk, firstMask pb.miract = some m

/-- The volume that is resynced is parallel and not read-only, a request that has failed is not
followed by the one for the next track, and no write that is lost at all copies spares one that is
being resynced. -/
def Resync.Orderly (s : Resync) : ResyncEvent → Prop
  | .start k => s.policy = .parallel ∧ (k = 0 ∨ ∀ j, s.client ≠ .failed j)
  | .initiateWrite => s.rdonly = false
  | .writeEnd order failed =>
    ∀ k good w, s.phase = .writing k good w → ∀ pb lost received,
      endOne s.policy s.vol (resyncBuf false) s.copies w order failed = some (.last pb lost received) → ¬Spares s pb
  | .otherEnd i order failed =>
    ∀ w ∈ s.writes[i]?, ∀ pb lost received,
      endOne s.policy s.vol otherBuf s.copies w order failed = some (.last pb lost received) → ¬Spares s pb
  | _ => True

/-- A resync is in progress. -/
def Resync.InProgress (s : Resync) : Prop := s.phase ≠ .idle ∨ ∃ k, s.client = .going k

/-- What holds of an extent and the steps it may take: a copy is made fresh only if all its tracks have been
written since the resync began, from good copies, and no write to it has failed. -/
def Resync.Safe (s : Resync) (ok : ResyncEvent → Prop) : Prop :=
  (∀ ev, ok ev → s.step ev ≠ some .panic) ∧
  (¬s.InProgress → s.copies.lext.synctrk = -1) ∧
  ∀ ev t, ok ev → s.step ev = some (.state t) →
    ∀ m, (s.copies.ext m).stale = true → (t.copies.ext m).stale = false →
      m ∉ t.failed ∧ ∀ k : ℕ, (k : ℤ) < s.vol.trkPerExt → k ∈ t.written m

end Conditions

variable {v : Volume} {x : Copies} {m : Mirror} {pb : Pbuf} {w : Inflight}
  {act avoid lost received : Mask}

section Invariant

/-- What `lx_synctrk` is between two requests, and how many tracks have been written. -/
def Client.track : Client → ℤ
  | .going k => k - 1
  | _ => -1

def Client.done : Client → ℕ
  | .going k => k
  | _ => 0

/-- What `lx_synctrk` is. -/
def Resync.track (s : Resync) : ℤ :=
  match s.phase with
  | .idle => s.client.track
  | .toRead k | .reading k _ _ | .readDone k _ _ | .onReadyQ k _ | .toWrite k _ | .writing k _ _
  | .writeDone k _ => k

/-- How many tracks have been written. -/
def Resync.done (s : Resync) : ℕ :=
  match s.phase with
  | .idle => s.client.done
  | .toRead k | .reading k _ _ | .readDone k _ _ | .onReadyQ k _ | .toWrite k _
  | .writing k _ _ => k
  | .writeDone k error => if error then k else k + 1

/-- The track of a request that has not been written. -/
def Phase.unwritten : Phase → Option ℕ
  | .toRead k | .reading k _ _ | .readDone k _ _ | .onReadyQ k _ | .toWrite k _
  | .writing k _ _ => some k
  | _ => none

/-- What is known of the request: what has been read is good, and the write is to all the copies
of `lx_syncmsk` but those that it leaves out. -/
def PhaseOk (syncmsk : Mask) : Phase → Prop
  | .reading _ _ good => good = true
  | .readDone _ error good => error = false → good = true
  | .onReadyQ _ good => good = true
  | .toWrite _ good => good = true
  | .writing _ good w => good = true ∧ ∃ act avoid, Tracked act avoid w ∧ ∀ m ∈ syncmsk, m ∈ act ∨ m ∈ avoid
  | _ => True

structure ResyncInv (s : Resync) : Prop where
  synctrk : s.copies.lext.synctrk = s.track
  range : s.phase ≠ .idle → s.track < s.vol.trkPerExt
  going : ∀ k, s.client = .going k → 0 < k ∧ (k : ℤ) < s.vol.trkPerExt
  tracks : 0 < s.vol.trkPerExt
  policy : s.copies.lext.synctrk ≠ -1 → s.policy = .parallel
  phase : PhaseOk s.copies.lext.syncmsk s.phase
  writes : s.policy = .parallel → ∀ w ∈ s.writes, ∃ act avoid, Tracked act avoid w
  syncing : s.copies.lext.synctrk ≠ -1 → ∀ m ∈ s.copies.lext.syncmsk,
    m ≤ s.vol.maxmirrors ∧ (s.copies.ext m).pvnum ≠ none ∧ (s.copies.ext m).stale = true
  clean : s.copies.lext.synctrk ≠ -1 → ∀ m ∈ s.copies.lext.syncmsk, m ∉ s.copies.lext.syncerr →
    m ∉ s.failed ∧ ∀ k < s.done, k ∈ s.written m

variable {s t : Resync} {k : ℕ} {turn : ResyncTurn} {phase : Phase} {lext : Lextent} {written : Mirror → Finset ℕ} {bad : Mask}
  {good : Bool}

theorem Resync.at_track (h : s.phase = phase) (hk : phase.unwritten = some k) : s.phase ≠ .idle ∧ s.track = k ∧ s.done = k := by
  unfold Resync.track Resync.done
  rw [h]
  cases phase with
  | idle => cases hk
  | writeDone j error => cases hk
  | _ =>
    cases hk
    exact ⟨Phase.noConfusion, rfl, rfl⟩

theorem ResyncInv.setPhase (hs : ResyncInv s) (htrack : ({ s with phase := phase } : Resync).track = s.track)
    (hdone : ({ s with phase := phase } : Resync).done ≤ s.done)
    (hactive : s.phase ≠ .idle) (hphase : PhaseOk s.copies.lext.syncmsk phase) :
    ResyncInv { s with phase := phase } where
  synctrk := hs.synctrk.trans htrack.symm
  range _ := htrack ▸ hs.range hactive
  going := hs.going
  tracks := hs.tracks
  policy := hs.policy
  phase := hphase
  writes := hs.writes
  syncing := hs.syncing
  clean h m hm herr := ⟨(hs.clean h m hm herr).1, fun j hj => (hs.clean h m hm herr).2 j (hj.trans_le hdone)⟩

theorem ResyncInv.finish_failed (hs : ResyncInv s) (hsynctrk : lext.synctrk = -1) :
    ResyncInv (({ s with copies := { s.copies with lext := lext } } : Resync).finish k true) where
  synctrk := hsynctrk
  range h := absurd rfl h
  going j h := by cases h
  tracks := hs.tracks
  policy h := absurd hsynctrk h
  phase := trivial
  writes := hs.writes
  syncing h := absurd hsynctrk h
  clean h := absurd hsynctrk h

theorem mem_syncmask : m ∈ syncmask v x ↔
    m ≤ v.maxmirrors ∧ (∃ pv, (x.ext m).pvnum = some pv ∧ v.missing pv = false) ∧
      (x.ext m).stale = true := by
  unfold syncmask
  rw [List.mem_toFinset, mem_filter, mem_mirrors, Bool.and_eq_true, Option.any_eq_true]
  simp only [Bool.not_eq_true']

section

variable (hs : ResyncInv s)
include hs

theorem ResyncInv.begin_track (hpolicy : s.policy = .parallel) (hk : (k : ℤ) < s.vol.trkPerExt) (hsynctrk : lext.synctrk = k)
    (hsyncing : ∀ m ∈ lext.syncmsk,
      m ≤ s.vol.maxmirrors ∧ (s.copies.ext m).pvnum ≠ none ∧ (s.copies.ext m).stale = true)
    (hclean : ∀ m ∈ lext.syncmsk, m ∉ lext.syncerr → m ∉ bad ∧ ∀ j < k, j ∈ written m) :
    ResyncInv { s with
      copies := { s.copies with lext := lext }
      phase := .toRead k
      written := written
      failed := bad } where
  synctrk := hsynctrk
  range _ := hk
  going := hs.going
  tracks := hs.tracks
  policy _ := hpolicy
  phase := trivial
  writes := hs.writes
  syncing _ := hsyncing
  clean _ := hclean

theorem ResyncInv.finish_done (hpolicy : s.policy = .parallel) (hk : (k : ℤ) < s.vol.trkPerExt)
    (hsynctrk : lext.synctrk = if (k : ℤ) = s.vol.trkPerExt - 1 then -1 else (k : ℤ))
    (hsyncing : lext.synctrk ≠ -1 → ∀ m ∈ lext.syncmsk,
      m ≤ s.vol.maxmirrors ∧ (s.copies.ext m).pvnum ≠ none ∧ (s.copies.ext m).stale = true)
    (hclean : lext.synctrk ≠ -1 → ∀ m ∈ lext.syncmsk, m ∉ lext.syncerr → m ∉ bad ∧ ∀ j < k + 1, j ∈ written m) :
    ResyncInv (({ s with
      copies := { s.copies with lext := lext }
      written := written
      failed := bad } : Resync).finish k false) := by
  let client : Client := if (k + 1 : ℤ) = s.vol.trkPerExt then .stopped else .going (k + 1)
  have hclient : lext.synctrk = -1 ∧ client = .stopped ∨
      lext.synctrk = k ∧ client = .going (k + 1) ∧ ((k + 1 : ℕ) : ℤ) < s.vol.trkPerExt := by
    by_cases hlast : (k : ℤ) + 1 = s.vol.trkPerExt
    · rw [if_pos (by omega)] at hsynctrk
      exact .inl ⟨hsynctrk, if_pos hlast⟩
    · rw [if_neg (by omega)] at hsynctrk
      exact .inr ⟨hsynctrk, if_neg hlast, by omega⟩
  refine ⟨?_, fun h => absurd rfl h, fun j hj => ?_, hs.tracks, fun _ => hpolicy, trivial,
    hs.writes, hsyncing, fun hne m hm herr => ?_⟩
  · show lext.synctrk = client.track
    rcases hclient with ⟨htrk, hc⟩ | ⟨htrk, hc, -⟩
    · rw [hc]
      exact htrk
    · rw [hc, htrk]
      show (k : ℤ) = ((k + 1 : ℕ) : ℤ) - 1
      omega
  · have hj : client = .going j := hj
    rcases hclient with ⟨-, hc⟩ | ⟨-, hc, hlt⟩
    · rw [hc] at hj
      cases hj
    · rw [hc] at hj
      cases hj
      exact ⟨Nat.succ_pos k, hlt⟩
  · refine ⟨(hclean hne m hm herr).1, fun j hj => (hclean hne m hm herr).2 j ?_⟩
    have hj : j < client.done := hj
    rcases hclient with ⟨htrk, -⟩ | ⟨-, hc, -⟩
    · exact absurd htrk hne
    · rw [hc] at hj
      exact hj

theorem ResyncInv.skip_track (hpolicy : s.policy = .parallel) (hk : (k : ℤ) < s.vol.trkPerExt) (hempty : lext.syncmsk = ∅)
    (hsynctrk : lext.synctrk = if (k : ℤ) = s.vol.trkPerExt - 1 then -1 else (k : ℤ)) :
    ResyncInv (({ s with
      copies := { s.copies with lext := lext }
      written := written
      failed := bad } : Resync).finish k false) := by
  have hmem (m : Mirror) (hm : m ∈ lext.syncmsk) : False := by
    rw [hempty] at hm
    exact Finset.notMem_empty m hm
  exact hs.finish_done hpolicy hk hsynctrk (fun _ m hm => (hmem m hm).elim)
    fun _ m hm => (hmem m hm).elim

theorem ResyncInv.initiateRead (hidle : s.phase = .idle) (hsends : s.client.sends s.vol.trkPerExt k = true)
    (hpolicy : s.policy = .parallel) (horderly : k = 0 ∨ ∀ j, s.client ≠ .failed j) :
    ∃ t, Lvm.initiateRead (if k = 0 then { s with written := fun _ => ∅, failed := ∅ } else s) k =
      .state t ∧ ResyncInv t ∧ t.copies.ext = s.copies.ext := by
  have hsynctrk := hs.synctrk
  have htracks := hs.tracks
  unfold Resync.track at hsynctrk
  rw [hidle] at hsynctrk
  have hcase : k = 0 ∧ s.copies.lext.synctrk = -1 ∨ 0 < k ∧ s.client = .going k := by
    cases hclient : s.client with
    | stopped =>
      rw [hclient] at hsynctrk hsends
      exact .inl ⟨of_decide_eq_true hsends, hsynctrk⟩
    | going j =>
      rw [hclient] at hsends
      obtain rfl : k = j := of_decide_eq_true hsends
      exact .inr ⟨(hs.going k hclient).1, rfl⟩
    | failed j =>
      rw [hclient] at hsynctrk
      exact .inl ⟨horderly.resolve_right fun h => h j hclient, hsynctrk⟩
  rcases hcase with ⟨rfl, hnone⟩ | ⟨hpos, hclient⟩
  · -- The resync begins, with the masks that are set now.
    rw [if_pos rfl, Lvm.initiateRead]
    simp only [hnone, ne_eq, not_true_eq_false, false_and, if_false, if_true]
    split
    · next hempty =>
      refine ⟨_, rfl, hs.skip_track hpolicy (by exact_mod_cast htracks) ?_ ?_, rfl⟩
      · split
        · exact hempty
        · exact hempty
      · split
        · rfl
        · rfl
    · refine ⟨_, rfl, hs.begin_track hpolicy (by exact_mod_cast htracks) rfl (fun m hm => ?_)
        (fun m hm _ => ⟨Finset.notMem_empty m, fun j hj => absurd hj (Nat.not_lt_zero j)⟩), rfl⟩
      obtain ⟨hle, ⟨pv, hpv, -⟩, hstale⟩ := mem_syncmask.mp hm
      refine ⟨hle, ?_, hstale⟩
      rw [hpv]
      exact some_ne_none pv
  · -- The resync goes on.
    obtain ⟨-, hlt⟩ := hs.going k hclient
    rw [hclient] at hsynctrk
    have hsynctrk : s.copies.lext.synctrk = k - 1 := hsynctrk
    have hne : s.copies.lext.synctrk ≠ -1 := by omega
    rw [if_neg (Nat.ne_of_gt hpos), Lvm.initiateRead]
    simp only [hsynctrk, ne_eq, not_true_eq_false, and_false, if_false]
    have hzero : ¬((k : ℤ) - 1 = -1) := by omega
    simp only [hzero, if_false]
    split
    · next hempty =>
      refine ⟨_, rfl, hs.skip_track hpolicy hlt ?_ ?_, rfl⟩
      · split
        · exact hempty
        · exact hempty
      · split
        · rfl
        · rfl
    · refine ⟨_, rfl, hs.begin_track hpolicy hlt rfl (hs.syncing hne) (fun m hm herr => ?_), rfl⟩
      have hdone : s.done = k := by
        unfold Resync.done
        rw [hidle, hclient]
        rfl
      have hclean := hs.clean hne m hm herr
      rwa [hdone] at hclean

theorem ResyncInv.beginRead (curxfs : ℕ → ℤ) (pb : Pbuf)
    (hactive : s.phase ≠ .idle) (htrack : s.track = k) (hdone : s.done = k) :
    ∃ t, Lvm.beginRead s k (lvBestmir s.vol (resyncBuf true) s.copies curxfs s.vol.mirrors pb (-1)
      none) = .state t ∧ ResyncInv t ∧ t.copies = s.copies := by
  have hread : (resyncBuf true).read = true := rfl
  have hspec := lvBestmir_spec (v := s.vol) (x := s.copies) hread curxfs
    (fun m hm => mem_mirrors.mp hm) pb (-1) none fun _ => rfl
  generalize lvBestmir s.vol (resyncBuf true) s.copies curxfs s.vol.mirrors pb (-1) none = o
    at hspec ⊢
  obtain ⟨pb', best⟩ := o
  rcases hspec with ⟨rfl, -, -⟩ | ⟨m, rfl, hbest, -⟩
  · refine ⟨_, rfl, hs.setPhase htrack.symm hdone.ge hactive ?_, rfl⟩
    exact fun h => by cases h
  · have hsound := (hbest.resolve_left fun h => by cases h).2
    refine ⟨_, rfl, hs.setPhase htrack.symm hdone.ge hactive ?_, rfl⟩
    rw [hsound.2.2]
    rfl

end

theorem mem_of_marks {ext ext' : Mirror → Extent} (h : Marks ext bad ext') (hm : (ext m).pvnum ≠ none ∧ (ext m).stale = true) :
    (ext' m).pvnum ≠ none ∧ (ext' m).stale = true := by
  obtain ⟨hpv, hstale⟩ := h m
  rw [hpv]
  exact ⟨hm.1, hstale.mpr (.inl hm.2)⟩

theorem mem_marked_closed (hs : s.copies.lext.synctrk ≠ -1) (hspares : ¬Spares s pb)
    (hm : m ∈ s.copies.lext.syncmsk) (hlost : m ∈ pb.mirbad ∪ pb.miravoid) : m ∈ marked pb.closed :=
  mem_marked hlost fun ⟨hall, hfirst⟩ => hspares ⟨hall, hs, m, hm, hfirst⟩

theorem ResyncInv.otherEnd {i : ℕ} (hs : ResyncInv s)
    (hlost : s.policy = .parallel → lost = pb.mirbad ∪ pb.miravoid) (hspares : ¬Spares s pb) :
    ∃ t, Lvm.otherEnd s i (.last pb lost received) = .state t ∧ ResyncInv t ∧
      ∀ m, (s.copies.ext m).stale = true → (t.copies.ext m).stale = true := by
  obtain ⟨e, x', hrun, hdone⟩ := lvWriteDone_other s.vol s.copies pb
  refine ⟨_, by rw [Lvm.otherEnd, hrun], ?_, fun m hm => ((hdone.ext m).2.mpr (.inl hm))⟩
  exact
    { synctrk := hdone.synctrk.trans hs.synctrk
      range := hs.range
      going := hs.going
      tracks := hs.tracks
      policy := fun hne => hs.policy (hdone.synctrk ▸ hne)
      phase := by
        rw [hdone.syncmsk]
        exact hs.phase
      writes := fun hp w hw => hs.writes hp w (mem_of_mem_eraseIdx hw)
      syncing := by
        intro hne m hm
        rw [hdone.synctrk] at hne
        rw [hdone.syncmsk] at hm
        obtain ⟨hle, hrest⟩ := hs.syncing hne m hm
        exact ⟨hle, mem_of_marks hdone.ext hrest⟩
      clean := by
        intro hne m hm herr
        rw [hdone.synctrk] at hne
        rw [hdone.syncmsk] at hm
        rw [hdone.syncerr, Finset.mem_union, not_or] at herr
        obtain ⟨hfailed, hwritten⟩ := hs.clean hne m hm herr.1
        refine ⟨?_, hwritten⟩
        rw [Finset.mem_union, not_or, hlost (hs.policy hne)]
        exact ⟨hfailed, fun h => herr.2 (mem_marked_closed hne hspares hm h)⟩ }

theorem ResyncInv.writeEnd (hs : ResyncInv s) (hphase : s.phase = .writing k true w)
    (hpb : TrackedLast act avoid pb lost received)
    (hsyncmsk : ∀ m ∈ s.copies.lext.syncmsk, m ∈ act ∨ m ∈ avoid) (hspares : ¬Spares s pb) :
    ∃ t, Lvm.writeEnd s k true (.last pb lost received) = .state t ∧ ResyncInv t ∧
      ∀ m, (s.copies.ext m).stale = true → (t.copies.ext m).stale = false →
        m ∉ t.failed ∧ ∀ k : ℕ, (k : ℤ) < s.vol.trkPerExt → k ∈ t.written m := by
  obtain ⟨hactive, htrack, hdone⟩ := Resync.at_track hphase rfl
  have hsynctrk : s.copies.lext.synctrk = k := hs.synctrk.trans htrack
  have hne : s.copies.lext.synctrk ≠ -1 := by omega
  have hrange : (k : ℤ) < s.vol.trkPerExt := htrack ▸ hs.range hactive
  -- What is left of the mask has received the track, and all the tracks before.
  have hleft (m : Mirror) (hm : m ∈ stillSyncing s.copies pb.closed) :
      m ∉ s.failed ∪ lost ∧ ∀ j ≤ k, j ∈
        if (true && decide (m ∈ received)) = true then insert k (s.written m)
        else s.written m := by
    unfold stillSyncing at hm
    rw [Finset.mem_sdiff, Finset.mem_union, Finset.mem_union, not_or, not_or] at hm
    obtain ⟨hmsk, ⟨herr, hmark⟩, havoid⟩ := hm
    obtain ⟨hfailed, hwritten⟩ := hs.clean hne m hmsk herr
    have hlost : m ∉ pb.mirbad ∪ pb.miravoid := fun h =>
      hmark (mem_marked_closed hne hspares hmsk h)
    have hreceived : m ∈ received := by
      rw [Finset.mem_union, not_or] at hlost
      have hact := (hsyncmsk m hmsk).resolve_right fun h => hlost.2 (hpb.same.2 ▸ h)
      exact (hpb.cover m hact).resolve_right hlost.1
    refine ⟨?_, fun j hj => ?_⟩
    · rw [Finset.mem_union, not_or, hpb.lost]
      exact ⟨hfailed, hlost⟩
    · rw [Bool.true_and, if_pos (decide_eq_true hreceived), Finset.mem_insert]
      rcases Nat.lt_or_eq_of_le hj with hlt | rfl
      · exact .inr (hwritten j (hdone ▸ hlt))
      · exact .inl rfl
  have hmsk (m : Mirror) (hm : m ∈ stillSyncing s.copies pb.closed) := hs.syncing hne m (Finset.mem_sdiff.mp hm).1
  by_cases hends : Finishes s.vol (resyncBuf false) s.copies pb.closed
  · obtain ⟨e, x', hrun, hclears⟩ := lvWriteDone_ends hends fun m hm => (hmsk m hm).2
    have hempty (m : Mirror) (hm : m ∈ x'.lext.syncmsk) : False := by
      rw [hclears.syncmsk] at hm
      exact Finset.notMem_empty m hm
    have hlast : (k : ℤ) = s.vol.trkPerExt - 1 := hsynctrk ▸ hends.2.2.2
    refine ⟨_, by rw [Lvm.writeEnd, hrun], ?_, fun m hstale hfresh => ?_⟩
    · exact
        { synctrk := hclears.synctrk.trans hsynctrk
          range := fun _ => hrange
          going := hs.going
          tracks := hs.tracks
          policy := fun _ => hs.policy hne
          phase := trivial
          writes := hs.writes
          syncing := fun _ m hm => (hempty m hm).elim
          clean := fun _ m hm => (hempty m hm).elim }
    · have hm : m ∈ stillSyncing s.copies pb.closed := by
        by_contra hnot
        have hstill : (x'.ext m).stale = true := (hclears.ext m).2.mpr ⟨hstale, hnot⟩
        rw [hstill] at hfresh
        cases hfresh
      exact ⟨(hleft m hm).1, fun j hj => (hleft m hm).2 j (by omega)⟩
  · obtain ⟨e, x', hrun, hmarks⟩ := lvWriteDone_resync hends
    refine ⟨_, by rw [Lvm.writeEnd, hrun], ?_, fun m hstale hfresh => ?_⟩
    · exact
        { synctrk := hmarks.synctrk.trans hsynctrk
          range := fun _ => hrange
          going := hs.going
          tracks := hs.tracks
          policy := fun _ => hs.policy hne
          phase := trivial
          writes := hs.writes
          syncing := by
            intro _ m hm
            rw [hmarks.syncmsk] at hm
            exact ⟨(hmsk m hm).1, mem_of_marks hmarks.ext (hmsk m hm).2⟩
          clean := by
            intro _ m hm _
            rw [hmarks.syncmsk] at hm
            refine ⟨(hleft m hm).1, fun j hj => (hleft m hm).2 j ?_⟩
            have hj : j < if e then k else k + 1 := hj
            split at hj
            · omega
            · omega }
    · have hstill : (x'.ext m).stale = true := (hmarks.ext m).2.mpr (.inl hstale)
      rw [hstill] at hfresh
      cases hfresh

/-- A step that leaves the invariant, and that makes only copies fresh that have been written. -/
def Resync.Becomes (s : Resync) (turn : ResyncTurn) : Prop :=
  ∃ t, turn = .state t ∧ ResyncInv t ∧
    ∀ m, (s.copies.ext m).stale = true → (t.copies.ext m).stale = false →
      m ∉ t.failed ∧ ∀ k : ℕ, (k : ℤ) < s.vol.trkPerExt → k ∈ t.written m

theorem Resync.Becomes.of_ext (h : ∃ t, turn = .state t ∧ ResyncInv t ∧
    ∀ m, (s.copies.ext m).stale = true → (t.copies.ext m).stale = true) : s.Becomes turn := by
  obtain ⟨t, rfl, hinv, hkeeps⟩ := h
  refine ⟨t, rfl, hinv, fun m hstale hfresh => ?_⟩
  rw [hkeeps m hstale] at hfresh
  cases hfresh

theorem Resync.Becomes.of_eq (hinv : ResyncInv t) (hext : t.copies = s.copies) : s.Becomes (.state t) :=
  .of_ext ⟨t, rfl, hinv, fun m hm => by rw [hext]; exact hm⟩

section

variable (hs : ResyncInv s)
include hs

theorem ResyncInv.terminate (h : Lvm.terminate s = some turn) : s.Becomes turn := by
  have hphase := hs.phase
  unfold Lvm.terminate at h
  cases hp : s.phase with
  | readDone k error good =>
    simp only [hp] at h hphase
    split at h
    · obtain rfl := some.inj h
      exact .of_ext ⟨_, rfl, hs.finish_failed rfl, fun m hm => hm⟩
    · next hok =>
      obtain rfl := some.inj h
      obtain ⟨hactive, htrack, hdone⟩ := Resync.at_track hp rfl
      exact .of_eq (hs.setPhase htrack.symm hdone.ge hactive (hphase (Bool.eq_false_iff.mpr hok))) rfl
  | writeDone k error =>
    simp only [hp] at h
    have hactive : s.phase ≠ .idle := fun hidle => by
      rw [hp] at hidle
      cases hidle
    have htrack : s.track = k := by
      unfold Resync.track
      rw [hp]
    have hrange := hs.range hactive
    have hsynctrk := hs.synctrk
    have hne : s.copies.lext.synctrk ≠ -1 := by omega
    cases error with
    | true =>
      rw [if_pos (.inr rfl)] at h
      obtain rfl := some.inj h
      exact .of_ext ⟨_, rfl, hs.finish_failed rfl, fun m hm => hm⟩
    | false =>
      have hclean (m : Mirror) (hm : m ∈ s.copies.lext.syncmsk)
          (herr : m ∉ s.copies.lext.syncerr) :
          m ∉ s.failed ∧ ∀ j < k + 1, j ∈ s.written m := by
        have hdone : s.done = k + 1 := by
          unfold Resync.done
          rw [hp]
          rfl
        have hclean := hs.clean hne m hm herr
        rwa [hdone] at hclean
      simp only [Bool.false_eq_true, or_false] at h
      split at h
      · obtain rfl := some.inj h
        refine .of_ext ⟨_, rfl, hs.finish_done (hs.policy hne) (by omega) ?_
          (fun h => absurd rfl h) (fun h => absurd rfl h), fun m hm => hm⟩
        rw [if_pos (by omega)]
      · obtain rfl := some.inj h
        refine .of_ext ⟨_, rfl, hs.finish_done (hs.policy hne) (by omega) ?_
          hs.syncing (fun _ => hclean), fun m hm => hm⟩
        rw [if_neg (by omega)]
        exact hsynctrk.trans htrack
  | _ =>
    simp only [hp] at h
    cases h

theorem ResyncInv.readEnd {result : Result} {curxfs : ℕ → ℤ}
    (hphase : s.phase = .reading k pb good) : s.Becomes (Lvm.readEnd s k pb good result curxfs) := by
  obtain ⟨hactive, htrack, hdone⟩ := Resync.at_track hphase rfl
  have hgood : good = true := by
    have hok := hs.phase
    rwa [hphase] at hok
  have hsynctrk := hs.synctrk
  have hpolicy := hs.policy (by omega)
  unfold Lvm.readEnd
  cases result with
  | ok =>
    exact .of_eq (hs.setPhase htrack.symm hdone.ge hactive fun _ => hgood) rfl
  | error media =>
    simp only [hpolicy]
    obtain ⟨t, ht, hinv, hext⟩ := hs.beginRead curxfs
      (if media then { pb with mirbad := insert pb.mirror pb.mirbad } else pb) hactive htrack hdone
    rw [ht]
    exact .of_eq hinv hext

theorem ResyncInv.initiateWrite (hphase : s.phase = .onReadyQ k good) (hrdonly : s.rdonly = false) :
    s.Becomes (Lvm.initiateWrite s k good) := by
  obtain ⟨hactive, htrack, hdone⟩ := Resync.at_track hphase rfl
  have hgood : good = true := by
    have hok := hs.phase
    rwa [hphase] at hok
  have hsynctrk : s.copies.lext.synctrk = k := hs.synctrk.trans htrack
  have hinv : ResyncInv { s with phase := .toWrite k good } := hs.setPhase htrack.symm hdone.ge hactive hgood
  rw [Lvm.initiateWrite, if_neg (Bool.eq_false_iff.mp hrdonly), if_neg (not_not.mpr hsynctrk)]
  exact .of_eq hinv rfl

theorem ResyncInv.scheduleWrite (left : Mask) (hphase : s.phase = .toWrite k good) :
    (beginWrite s.policy s.vol (resyncBuf false) s.copies left = none →
      s.Becomes (.state { s with phase := .writeDone k true })) ∧
    ∀ w, beginWrite s.policy s.vol (resyncBuf false) s.copies left = some w →
      s.Becomes (.state { s with phase := .writing k good w }) := by
  obtain ⟨hactive, htrack, hdone⟩ := Resync.at_track hphase rfl
  have hgood : good = true := by
    have hok := hs.phase
    rwa [hphase] at hok
  have hsynctrk := hs.synctrk
  have hne : s.copies.lext.synctrk ≠ -1 := by omega
  have hfailed : ResyncInv { s with phase := .writeDone k true } := hs.setPhase htrack.symm hdone.ge hactive trivial
  refine ⟨fun _ => .of_eq hfailed rfl, fun w hw => ?_⟩
  rw [hs.policy hne] at hw
  refine .of_eq (hs.setPhase htrack.symm hdone.ge hactive ⟨hgood, _, _, tracked_beginWrite hw, fun m hm => ?_⟩) rfl
  obtain ⟨hle, hpv, -⟩ := hs.syncing hne m hm
  obtain ⟨pv, hsome⟩ := ne_none_iff_exists'.mp hpv
  rw [List.mem_toFinset, List.mem_toFinset, mem_filter, mem_filter, mem_mirrors]
  unfold usable gone
  rw [hsome]
  cases hmissing : s.vol.missing pv with
  | true => exact .inr ⟨hle, hmissing⟩
  | false => exact .inl ⟨hle, by simp [hmissing, hm]⟩

theorem ResyncInv.congr {rdonly : Bool} {missing : ℕ → Bool} {x : Copies} (hlext : x.lext = s.copies.lext)
    (hext : ∀ m, (x.ext m).pvnum = (s.copies.ext m).pvnum ∧ (x.ext m).stale = (s.copies.ext m).stale) :
    ResyncInv { s with rdonly := rdonly, vol := { s.vol with missing := missing }, copies := x } where
  synctrk := (congrArg Lextent.synctrk hlext).trans hs.synctrk
  range := hs.range
  going := hs.going
  tracks := hs.tracks
  policy h := hs.policy (hlext ▸ h)
  phase := by
    rw [hlext]
    exact hs.phase
  writes := hs.writes
  syncing h m hm := by
    obtain ⟨hle, hrest⟩ := hs.syncing (hlext ▸ h) m (hlext ▸ hm)
    refine ⟨hle, ?_⟩
    rw [(hext m).1, (hext m).2]
    exact hrest
  clean h m hm herr := hs.clean (hlext ▸ h) m (hlext ▸ hm) (hlext ▸ herr)

theorem ResyncInv.step {ev : ResyncEvent} (horderly : s.Orderly ev)
    (h : s.step ev = some turn) : s.Becomes turn := by
  cases ev with
  | start k =>
    rw [Resync.step] at h
    split at h
    · next hphase =>
      split at h
      · next hsends =>
        obtain ⟨t, ht, hinv, hext⟩ := hs.initiateRead hphase hsends horderly.1 horderly.2
        rw [ht] at h
        obtain rfl := some.inj h
        exact .of_ext ⟨t, rfl, hinv, fun m hm => by rw [hext]; exact hm⟩
      · cases h
    · cases h
  | scheduleRead curxfs =>
    rw [Resync.step] at h
    split at h
    · next k hphase =>
      obtain ⟨hactive, htrack, hdone⟩ := Resync.at_track hphase rfl
      have hsynctrk := hs.synctrk
      have hpolicy := hs.policy (by omega)
      obtain ⟨t, ht, hinv, hext⟩ := hs.beginRead curxfs ⟨0, ∅, ∅, ∅, ∅, false⟩ hactive htrack hdone
      rw [Lvm.scheduleRead, hpolicy] at h
      simp only [ht] at h
      obtain rfl := some.inj h
      exact .of_eq hinv hext
    · cases h
  | readEnd result curxfs =>
    rw [Resync.step] at h
    split at h
    · next k pb good hphase =>
      obtain rfl := some.inj h
      exact hs.readEnd hphase
    · cases h
  | terminate => exact hs.terminate h
  | initiateWrite =>
    rw [Resync.step] at h
    split at h
    · next k good hphase =>
      obtain rfl := some.inj h
      exact hs.initiateWrite hphase horderly
    · cases h
  | scheduleWrite left =>
    rw [Resync.step] at h
    split at h
    · next k good hphase =>
      have hwrite := hs.scheduleWrite left hphase
      split at h
      · next hnone =>
        obtain rfl := some.inj h
        exact hwrite.1 hnone
      · next w hw =>
        obtain rfl := some.inj h
        exact hwrite.2 w hw
    · cases h
  | writeEnd order failed =>
    rw [Resync.step] at h
    split at h
    · next k good w hphase =>
      obtain ⟨e, he, rfl⟩ := map_eq_some_iff.mp h
      obtain ⟨hactive, htrack, hdone⟩ := Resync.at_track hphase rfl
      have hsynctrk := hs.synctrk
      have hok := hs.phase
      rw [hphase] at hok
      obtain ⟨rfl, act, avoid, htracked, hsyncmsk⟩ := hok
      have hparallel := he
      rw [hs.policy (by omega)] at hparallel
      rcases htracked.endOne hparallel with ⟨w', rfl, hw'⟩ | ⟨pb, lost, received, rfl, hlast⟩
      · exact .of_eq (hs.setPhase htrack.symm hdone.ge hactive ⟨rfl, act, avoid, hw', hsyncmsk⟩) rfl
      · exact hs.writeEnd hphase hlast hsyncmsk (horderly k true w hphase pb lost received he)
    · cases h
  | otherWrite left =>
    rw [Resync.step] at h
    split at h
    · cases h
    · next w hw =>
      obtain rfl := some.inj h
      refine .of_eq ⟨hs.synctrk, hs.range, hs.going, hs.tracks, hs.policy, hs.phase,
        fun hpolicy w' hw' => ?_, hs.syncing, hs.clean⟩ rfl
      rcases mem_append.mp hw' with hw' | hw'
      · exact hs.writes hpolicy w' hw'
      · obtain rfl := mem_singleton.mp hw'
        have hpolicy : s.policy = .parallel := hpolicy
        rw [hpolicy] at hw
        exact ⟨_, _, tracked_beginWrite hw⟩
  | otherEnd i order failed =>
    obtain ⟨w, hw, hend⟩ := bind_eq_some_iff.mp h
    obtain ⟨e, he, rfl⟩ := map_eq_some_iff.mp hend
    have hmem : w ∈ s.writes := mem_of_getElem? hw
    cases e with
    | more w' =>
      refine .of_eq ⟨hs.synctrk, hs.range, hs.going, hs.tracks, hs.policy, hs.phase,
        fun hpolicy w₁ hw₁ => ?_, hs.syncing, hs.clean⟩ rfl
      rcases mem_or_eq_of_mem_set hw₁ with hw₁ | rfl
      · exact hs.writes hpolicy w₁ hw₁
      · have hpolicy : s.policy = .parallel := hpolicy
        obtain ⟨act, avoid, htracked⟩ := hs.writes hpolicy w hmem
        rw [hpolicy] at he
        rcases htracked.endOne he with ⟨w₂, heq, hw₂⟩ | ⟨_, _, _, heq, -⟩
        · cases heq
          exact ⟨act, avoid, hw₂⟩
        · cases heq
    | last pb lost received =>
      refine .of_ext (hs.otherEnd (fun hpolicy => ?_) (horderly w hw pb lost received he))
      obtain ⟨act, avoid, htracked⟩ := hs.writes hpolicy w hmem
      rw [hpolicy] at he
      rcases htracked.endOne he with ⟨_, heq, -⟩ | ⟨_, _, _, heq, hlast⟩
      · cases heq
      · cases heq
        exact hlast.lost
  | saDone mirbad =>
    obtain rfl := some.inj h
    have hspec := lvStaleppDone_spec false mirbad s.copies
    exact .of_ext ⟨_, rfl, hs.congr (lext_lvStaleppDone ..) hspec, fun m hm => (hspec m).2.trans hm⟩
  | setMissing missing =>
    obtain rfl := some.inj h
    exact .of_eq (hs.congr rfl fun m => ⟨rfl, rfl⟩) rfl
  | setRdonly rdonly =>
    obtain rfl := some.inj h
    exact .of_eq (hs.congr rfl fun m => ⟨rfl, rfl⟩) rfl

end

theorem resyncInv_of_reachable (h : (resyncs.restrict Resync.Orderly).Reachable s) : ResyncInv s := by
  apply h.invariant
  · intro s hs
    obtain ⟨hsynctrk, hclient, hphase, hwrites, htracks⟩ := hs
    have htrack : s.track = -1 := by
      unfold Resync.track
      rw [hphase, hclient]
      rfl
    refine ⟨hsynctrk.trans htrack.symm, fun h => absurd hphase h, fun k hk => ?_, htracks,
      fun h => absurd hsynctrk h, ?_, fun _ w hw => ?_, fun h => absurd hsynctrk h,
      fun h => absurd hsynctrk h⟩
    · rw [hclient] at hk
      cases hk
    · rw [hphase]
      trivial
    · rw [hwrites] at hw
      cases hw
  · rintro s ev t - hs ⟨horderly, hstep⟩
    obtain ⟨turn, hturn, hstate⟩ := bind_eq_some_iff.mp hstep
    obtain ⟨t', rfl, hinv, -⟩ := hs.step horderly hturn
    cases hstate
    exact hinv

end Invariant

/-- An extent of one track with two copies, of which the first one is stale. -/
def halfStale (policy : Policy) : Resync where
  policy := policy
  rdonly := false
  vol := ⟨1, fun _ => false, 1⟩
  copies := ⟨fun m => if m = 0 then ⟨some 0, true, false⟩ else if m = 1 then ⟨some 1, false, false⟩
    else ⟨none, false, false⟩, ⟨-1, ∅, ∅⟩⟩
  client := .stopped
  phase := .idle
  writes := []
  written := fun _ => ∅
  failed := ∅

end Osf1.Lvm
