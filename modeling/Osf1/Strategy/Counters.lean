import Osf1.Strategy.Serial

/-!
# The counters of outstanding requests

A request that is started is on `lv_ready_Q`, then with the layers below, and then on its way out.
The count of the volume and the one of the group are under two locks, so that the request is
counted by the group some time after it is queued, and is no longer counted some time before it
leaves its chain.
-/

set_option autoImplicit false

namespace Osf1.Strategy

open Function List

open Osf1.Computation

/-- A request that is started, and its `B_READ`: a resync is first a read and then a write. -/
structure Pending where
  lb : Request
  read : Bool
  deriving DecidableEq

/-- A logical volume, the requests on `lv_ready_Q`, and where the others are: the `lower` ones are
with `lv_mwcm` and below, and the last three are those for which `vg_requestcount` is to be
incremented, for which it is to be decremented, and for which `lv_complete` is to be called. -/
structure Volume where
  st : State
  rdonly : Bool
  lvsize : ℤ
  readyQ : List Pending
  lower : List Pending
  charging : List Request
  discharging : List Request
  completing : List Request

/-- The lock sections of a volume.  A resync read finds no mirror to synchronize, or a request ends
with `B_ERROR`, as the `Bool` says.  The flags and the size of the volume may be changed. -/
inductive Action
  | strategy (lb : Request)
  | charge (lb : Request)
  | fetch (noMask : Bool)
  | terminate (p : Pending) (error : Bool)
  | discharge (lb : Request)
  | complete (lb : Request)
  | pause
  | paused
  | continue
  | change (rdonly : Bool) (lvsize : ℤ)

/-- What is added to `lv_ready_Q`. -/
def Volume.start (v : Volume) (queued : List Request) (t : Turn) : Volume :=
  { v with
    st := ⟨t.lv, queued, v.st.started ++ t.ready⟩
    readyQ := v.readyQ ++ t.ready.map fun lb => ⟨lb, lb.read⟩ }

/-- `lv_initiate` takes the first request from `lv_ready_Q`.
SRC: lvm/lv_strategy.c:435-566 -/
def lvInitiate (v : Volume) (noMask : Bool) : Option Volume :=
  match v.readyQ with
  | [] => none
  | p :: rest =>
    -- write of R/O LV
    if v.rdonly && !p.read then
      some { v with readyQ := rest, completing := p.lb :: v.completing }
    -- End of Media
    else if v.lvsize ≤ p.lb.blkno.toInt then
      some { v with readyQ := rest, discharging := p.lb :: v.discharging }
    else if p.lb.resync && p.read && noMask then
      some { v with readyQ := rest, discharging := p.lb :: v.discharging }
    else some { v with readyQ := rest, lower := p :: v.lower }

/-- The end of a read of a resync that has no error makes it a write.
SRC: lvm/lv_strategy.c:627-699 -/
def lvTerminate (v : Volume) (p : Pending) (error : Bool) : Volume :=
  if p.lb.resync && p.read && !error then
    { v with lower := v.lower.erase p, readyQ := v.readyQ ++ [⟨p.lb, false⟩] }
  else { v with lower := v.lower.erase p, discharging := p.lb :: v.discharging }

/-- The volume after an action, and what is added to `vg_requestcount`. -/
def Volume.step (shift : ℕ) (v : Volume) : Action → Option (Volume × ℤ)
  | .strategy lb =>
    if lb ∈ v.st.queued then none
    else
      (lvStrategy shift v.st.lv lb).map fun t =>
        ({ v.start (v.st.queued ++ [lb]) t with charging := lb :: v.charging }, 0)
  | .charge lb =>
    if lb ∈ v.charging then some ({ v with charging := v.charging.erase lb }, 1) else none
  | .fetch noMask => (lvInitiate v noMask).map fun v => (v, 0)
  | .terminate p error => if p ∈ v.lower then some (lvTerminate v p error, 0) else none
  | .discharge lb =>
    if lb ∈ v.discharging then
      some ({ v with
        discharging := v.discharging.erase lb
        completing := lb :: v.completing }, -1)
    else none
  | .complete lb =>
    if lb ∈ v.completing then
      (lvComplete shift v.st.lv lb).map fun t =>
        ({ v.start v.st.queued t with completing := v.completing.erase lb }, 0)
    else none
  | .pause => (lvPause v.st.lv).map fun lv => ({ v with st := { v.st with lv := lv } }, 0)
  | .paused => (lvPaused v.st.lv).map fun lv => ({ v with st := { v.st with lv := lv } }, 0)
  | .continue => (lvContinue shift v.st.lv).map fun t => (v.start v.st.queued t, 0)
  | .change rdonly lvsize => some ({ v with rdonly := rdonly, lvsize := lvsize }, 0)

/-- A volume group. -/
structure Group (n : ℕ) where
  vols : Fin n → Volume
  requestcount : ℤ

def Group.step {n : ℕ} (shift : ℕ) (g : Group n) (ev : Fin n × Action) : Option (Group n) :=
  ((g.vols ev.1).step shift ev.2).map fun r =>
    ⟨update g.vols ev.1 r.1, g.requestcount + r.2⟩

/-- A volume when it is opened. -/
def Volume.idle : Volume := ⟨⟨.idle, [], []⟩, false, 0, [], [], [], [], []⟩

/-- The runs of a group. -/
def group (shift n : ℕ) : System (Group n) (Fin n × Action) := .ofFun ⟨fun _ => .idle, 0⟩ (Group.step shift)

/-- The requests of a volume that the group counts: those on `work_Q`, less those that are not yet
counted and those that are terminated. -/
def Volume.outstanding (v : Volume) : ℤ := v.st.lv.requests.length - v.charging.length - v.completing.length

/-- The counters are exact, `lv_pause` goes on when no request is in progress, and `lv_complete`
does not panic. -/
def Exact {n : ℕ} (shift : ℕ) (g : Group n) : Prop :=
  (∀ i, (g.vols i).st.lv.requestcount = (g.vols i).st.lv.requests.length) ∧
  g.requestcount = ∑ i, (g.vols i).outstanding ∧
  (∀ i, (g.vols i).st.lv.pausing = true → (g.vols i).st.lv.complcnt = (g.vols i).st.lv.inProgress ∧
    ((lvPaused (g.vols i).st.lv).isSome ↔ ∀ lb, ¬InProgress (g.vols i).st lb)) ∧
  ∀ i, ∀ lb ∈ (g.vols i).completing, (lvComplete shift (g.vols i).st.lv lb).isSome

/-- No write is taken from the `lv_ready_Q` of a volume that is read-only. -/
def Volume.Orderly (v : Volume) (act : Action) : Prop :=
  ∀ noMask, act = .fetch noMask → ∀ p ∈ v.readyQ.head?, v.rdonly = true → p.read = true

def Orderly {n : ℕ} (g : Group n) (ev : Fin n × Action) : Prop := (g.vols ev.1).Orderly ev.2

variable {shift n : ℕ} {s s' : State} {lb a : Request} {v v' : Volume} {act : Action}
  {g : Group n} {ev : Event} {d : ℤ}

section Chains

theorem inProgress_enqueue_iff : InProgress (enqueue shift s lb) a ↔ InProgress s a := by
  apply exists_congr
  intro q
  by_cases hq : q = lvHash shift lb
  · rw [hq, workQ_enqueue_self]
    simp
  · rw [workQ_enqueue_of_ne hq]

theorem inProgress_settle_iff :
    InProgress (settle shift s) a ↔
      InProgress s a ∨ a ∈ (List.finRange 64).flatMap fun q =>
        admitted (Conflict shift) [] (s.lv.workQ q) := by
  have hchain (q : Fin 64) : ⟨a, false⟩ ∈ (settle shift s).lv.workQ q ↔
      ⟨a, false⟩ ∈ s.lv.workQ q ∨ a ∈ admitted (Conflict shift) [] (s.lv.workQ q) := by
    rw [← mem_running, ← mem_running]
    exact running_admitFrom a
  rw [InProgress, InProgress, mem_flatMap]
  simp only [hchain, exists_or, mem_finRange, true_and]

variable {c : ℤ}

theorem Serial.inProgress_dequeue_iff (hs : Serial shift s) :
    InProgress (Strategy.dequeue shift s lb c) a ↔ InProgress s a ∧ a ≠ lb := by
  rw [InProgress, InProgress]
  simp only [mem_workQ_dequeue]
  constructor
  · rintro ⟨q, hq, hne⟩
    refine ⟨⟨q, hq⟩, ?_⟩
    rintro rfl
    exact hne (hs.hash q a (Lvol.mem_items hq)).symm rfl
  · rintro ⟨⟨q, hq⟩, hne⟩
    exact ⟨q, hq, fun _ => hne⟩

theorem Inv.inProgress_step (hs : Inv shift s) (h : Strategy.step shift s ev = some s') :
    ∃ ready, s'.started = s.started ++ ready ∧
      ∀ a, InProgress s' a ↔ InProgress s a ∧ ev ≠ .complete a ∨ a ∈ ready := by
  rcases hs.step_cases h with ⟨lb, rfl, -, -, ⟨-, rfl⟩ | ⟨-, rfl⟩⟩ |
    ⟨lb, rfl, -, ⟨-, rfl⟩ | ⟨-, rfl⟩⟩ | ⟨rfl, -, -, rfl⟩ | ⟨rfl, -, -, rfl⟩ | ⟨rfl, -, rfl⟩
  · refine ⟨[], (append_nil _).symm, fun a => ?_⟩
    rw [inProgress_enqueue_iff]
    simp
  · refine ⟨_, rfl, fun a => ?_⟩
    rw [inProgress_settle_iff, inProgress_enqueue_iff]
    simp
  · refine ⟨[], (append_nil _).symm, fun a => ?_⟩
    rw [hs.serial.inProgress_dequeue_iff]
    simp [eq_comm]
  · refine ⟨_, rfl, fun a => ?_⟩
    rw [inProgress_settle_iff, hs.serial.inProgress_dequeue_iff]
    simp [eq_comm]
  · refine ⟨[], (append_nil _).symm, fun a => ?_⟩
    simp [InProgress]
  · refine ⟨[], (append_nil _).symm, fun a => ?_⟩
    simp [InProgress]
  · refine ⟨_, rfl, fun a => ?_⟩
    rw [inProgress_settle_iff]
    simp [InProgress]

theorem Lvol.length_requests (lv : Lvol) : lv.requests.length = ∑ q, (lv.workQ q).length := by
  rw [requests, length_flatMap, Fin.sum_univ_def]

theorem length_requests_settle : (settle shift s).lv.requests.length = s.lv.requests.length := by
  rw [Lvol.length_requests, Lvol.length_requests]
  apply Finset.sum_congr rfl
  intro q _
  have hitems : ((settle shift s).lv.items q).length = (s.lv.items q).length :=
    congrArg length (Lvol.items_settle q)
  rwa [Lvol.items, Lvol.items, length_map, length_map] at hitems

theorem Lvol.length_requests_update (lv lv' : Lvol) (i : Fin 64) (q : List Entry)
    (h : lv'.workQ = update lv.workQ i q) :
    lv'.requests.length + (lv.workQ i).length = lv.requests.length + q.length := by
  rw [length_requests, length_requests, h]
  exact sum_update Finset.univ length lv.workQ (Finset.mem_univ i) q

theorem length_requests_enqueue : (enqueue shift s lb).lv.requests.length = s.lv.requests.length + 1 := by
  have hsum := Lvol.length_requests_update s.lv (enqueue shift s lb).lv (lvHash shift lb) _ rfl
  rw [length_append, length_singleton] at hsum
  omega

theorem Serial.length_requests_dequeue (hs : Serial shift s) (hlb : InProgress s lb) :
    (Strategy.dequeue shift s lb c).lv.requests.length + 1 = s.lv.requests.length := by
  obtain ⟨-, older, newer, hchain, -, hfilter⟩ := hs.chain_of_inProgress hlb
  have hsum := Lvol.length_requests_update s.lv (Strategy.dequeue shift s lb c).lv
    (lvHash shift lb) _ rfl
  rw [hfilter, hchain, length_append, length_append, length_cons] at hsum
  omega

/-- How the requests of a volume are counted. -/
def Event.added : Event → ℤ
  | .strategy _ => 1
  | .complete _ => -1
  | _ => 0

theorem Inv.length_requests_step (hs : Inv shift s) (h : Strategy.step shift s ev = some s') :
    (s'.lv.requests.length : ℤ) = s.lv.requests.length + ev.added ∧
      s'.lv.requestcount = s.lv.requestcount + ev.added := by
  rcases hs.step_cases h with ⟨lb, rfl, -, -, hcase⟩ | ⟨lb, rfl, hlb, hcase⟩ |
    ⟨rfl, -, -, rfl⟩ | ⟨rfl, -, -, rfl⟩ | ⟨rfl, -, rfl⟩
  · have hlen : (enqueue shift s lb).lv.requests.length = s.lv.requests.length + 1 := length_requests_enqueue
    rcases hcase with ⟨-, rfl⟩ | ⟨-, rfl⟩
    · rw [hlen]
      exact ⟨Nat.cast_succ _, rfl⟩
    · rw [length_requests_settle, hlen]
      exact ⟨Nat.cast_succ _, rfl⟩
  · rcases hcase with ⟨-, rfl⟩ | ⟨-, rfl⟩
    · have hlen := hs.serial.length_requests_dequeue (c := s.lv.complcnt - 1) hlb
      exact ⟨by rw [Event.added]; omega, rfl⟩
    · have hlen := hs.serial.length_requests_dequeue (c := s.lv.complcnt) hlb
      rw [length_requests_settle]
      exact ⟨by rw [Event.added]; omega, rfl⟩
  · exact ⟨(Int.add_zero _).symm, (Int.add_zero _).symm⟩
  · exact ⟨(Int.add_zero _).symm, (Int.add_zero _).symm⟩
  · rw [length_requests_settle]
    exact ⟨(Int.add_zero _).symm, (Int.add_zero _).symm⟩

theorem requestcount_of_reachable (h : (system shift).Reachable s) : s.lv.requestcount = s.lv.requests.length := by
  apply h.invariant (I := fun s => s.lv.requestcount = s.lv.requests.length)
  · rintro s rfl
    simp [Lvol.idle, Lvol.requests]
  · intro s ev t hs hcount hstep
    obtain ⟨hlen, hadd⟩ := (inv_of_reachable hs).length_requests_step hstep
    rw [hlen, hadd, hcount]

end Chains

section Flight

/-- The requests that have been taken from the chains to be done. -/
def Volume.flight (v : Volume) : List Request :=
  v.readyQ.map Pending.lb ++ v.lower.map Pending.lb ++ v.discharging ++ v.completing

/-- Every request in progress is in one place. -/
structure VolumeInv (shift : ℕ) (v : Volume) : Prop where
  reach : (system shift).Reachable v.st
  nodup : v.flight.Nodup
  mem : ∀ a, a ∈ v.flight ↔ InProgress v.st a

theorem VolumeInv.of_perm (hv : VolumeInv shift v) (hst : v'.st = v.st)
    (hperm : v'.flight.Perm v.flight) : VolumeInv shift v' where
  reach := hst ▸ hv.reach
  nodup := hperm.nodup_iff.mpr hv.nodup
  mem a := by
    rw [hperm.mem_iff, hst]
    exact hv.mem a

theorem VolumeInv.of_step {ready rest : List Request} (hv : VolumeInv shift v)
    (h : Strategy.step shift v.st ev = some v'.st)
    (hstarted : v'.st.started = v.st.started ++ ready) (hrest : rest.Nodup)
    (hmem : ∀ a, a ∈ rest ↔ InProgress v.st a ∧ ev ≠ .complete a)
    (hperm : v'.flight.Perm (rest ++ ready)) : VolumeInv shift v' := by
  have hs := inv_of_reachable hv.reach
  have hs' := inv_of_reachable (hv.reach.step h)
  obtain ⟨ready', hready', hnew⟩ := hs.inProgress_step h
  obtain rfl : ready = ready' := append_cancel_left (hstarted.symm.trans hready')
  refine ⟨hv.reach.step h, hperm.nodup_iff.mpr ?_, fun a => ?_⟩
  · have hnodup := hs'.serial.started
    rw [hstarted] at hnodup
    refine nodup_append'.mpr ⟨hrest, (nodup_append'.mp hnodup).2.1, fun a ha hr => ?_⟩
    have hold := (hs.serial.chain_of_inProgress ((hmem a).mp ha).1).1
    exact disjoint_of_nodup_append hnodup hold hr
  · rw [hperm.mem_iff, mem_append, hnew, hmem]

variable {queued : List Request} {t : Turn}

theorem Volume.flight_start : (v.start queued t).flight.Perm (v.flight ++ t.ready) := by
  have hlb : (t.ready.map fun lb => (⟨lb, lb.read⟩ : Pending)).map Pending.lb = t.ready := by
    rw [map_map]
    exact map_id _
  unfold flight start
  rw [map_append, hlb]
  apply perm_iff_count.mpr
  intro a
  simp only [count_append]
  omega

section

variable (hv : VolumeInv shift v)
include hv

theorem VolumeInv.start (h : Strategy.step shift v.st ev = some (v.start queued t).st)
    (hev : ∀ lb, ev ≠ .complete lb) : VolumeInv shift (v.start queued t) := by
  refine hv.of_step h rfl hv.nodup (fun a => ?_) Volume.flight_start
  rw [hv.mem]
  exact (and_iff_left (hev a)).symm

theorem VolumeInv.lvInitiate {noMask : Bool} (h : lvInitiate v noMask = some v') :
    VolumeInv shift v' ∧ (v.Orderly (.fetch noMask) → v'.outstanding = v.outstanding) := by
  rw [Strategy.lvInitiate] at h
  cases hq : v.readyQ with
  | nil =>
    rw [hq] at h
    cases h
  | cons p rest =>
    have hflight (v' : Volume) (hst : v'.st = v.st)
        (hcount : ∀ a, v'.flight.count a = (v.readyQ.map Pending.lb ++ v.lower.map Pending.lb ++
          v.discharging ++ v.completing).count a) : VolumeInv shift v' :=
      hv.of_perm hst (perm_iff_count.mpr hcount)
    simp only [hq] at h hflight
    split at h
    · next hrdonly =>
      obtain rfl := Option.some.inj h
      refine ⟨hflight _ rfl fun a => ?_, fun horderly => ?_⟩
      · simp only [Volume.flight, map_cons, count_append, count_cons]
        omega
      · rw [Bool.and_eq_true, Bool.not_eq_true'] at hrdonly
        have hread := horderly noMask rfl p (by rw [hq]; rfl) hrdonly.1
        cases hread.symm.trans hrdonly.2
    · split at h
      · obtain rfl := Option.some.inj h
        refine ⟨hflight _ rfl fun a => ?_, fun _ => rfl⟩
        simp only [Volume.flight, map_cons, count_append, count_cons]
        omega
      · split at h
        · obtain rfl := Option.some.inj h
          refine ⟨hflight _ rfl fun a => ?_, fun _ => rfl⟩
          simp only [Volume.flight, map_cons, count_append, count_cons]
          omega
        · obtain rfl := Option.some.inj h
          refine ⟨hflight _ rfl fun a => ?_, fun _ => rfl⟩
          simp only [Volume.flight, map_cons, count_append, count_cons]
          omega

theorem VolumeInv.lvTerminate {p : Pending} {error : Bool} (hp : p ∈ v.lower) :
    VolumeInv shift (lvTerminate v p error) ∧
      (Strategy.lvTerminate v p error).outstanding = v.outstanding := by
  have hlower (a : Request) : (v.lower.map Pending.lb).count a =
      (p.lb :: (v.lower.erase p).map Pending.lb).count a :=
    ((perm_cons_erase hp).map Pending.lb).count_eq a
  unfold Strategy.lvTerminate
  split
  · refine ⟨hv.of_perm rfl (perm_iff_count.mpr fun a => ?_), rfl⟩
    simp only [Volume.flight, map_append, map_cons, map_nil, count_append, hlower, count_cons, count_nil]
    omega
  · refine ⟨hv.of_perm rfl (perm_iff_count.mpr fun a => ?_), rfl⟩
    simp only [Volume.flight, count_append, hlower, count_cons]
    omega

theorem VolumeInv.complete (hlb : lb ∈ v.completing) (ht : lvComplete shift v.st.lv lb = some t) :
    VolumeInv shift { v.start v.st.queued t with completing := v.completing.erase lb } ∧
      ({ v.start v.st.queued t with completing := v.completing.erase lb } :
        Volume).outstanding = v.outstanding := by
  have hflight : lb ∈ v.flight := mem_append_right _ hlb
  have hrun : InProgress v.st lb := (hv.mem lb).mp hflight
  have hstep : Strategy.step shift v.st (.complete lb) = some (v.start v.st.queued t).st := by
    rw [Strategy.step, if_pos hrun, ht]
    rfl
  have hcompleting (a : Request) : v.completing.count a = (lb :: v.completing.erase lb).count a :=
    (perm_cons_erase hlb).count_eq a
  constructor
  · refine hv.of_step hstep rfl (hv.nodup.erase lb) (fun a => ?_)
      (perm_iff_count.mpr fun a => ?_)
    · rw [hv.nodup.mem_erase_iff, hv.mem]
      simp [eq_comm, and_comm]
    · have herase := ((perm_cons_erase hflight).count_eq a)
      have hstart : (v.start v.st.queued t).flight.count a = (v.flight ++ t.ready).count a :=
        Volume.flight_start.count_eq a
      simp only [Volume.flight, Volume.start, count_append, count_cons, hcompleting] at herase hstart ⊢
      omega
  · have hlen := (inv_of_reachable hv.reach).length_requests_step hstep
    have hcount := length_erase_of_mem hlb
    have hpos := length_pos_of_mem hlb
    have hrequests := hlen.1
    rw [Event.added] at hrequests
    show ((v.start v.st.queued t).st.lv.requests.length : ℤ) - v.charging.length -
      (v.completing.erase lb).length = _
    rw [hrequests, Volume.outstanding]
    omega

theorem VolumeInv.setLv {lv : Lvol} (h : Strategy.step shift v.st ev = some { v.st with lv := lv })
    (hev : ∀ lb, ev ≠ .complete lb) (hadded : ev.added = 0) :
    VolumeInv shift { v with st := { v.st with lv := lv } } ∧
      (v.Orderly act →
        ({ v with st := { v.st with lv := lv } } : Volume).outstanding = v.outstanding + 0) := by
  refine ⟨?_, fun _ => ?_⟩
  · have hperm : v.flight.Perm (v.flight ++ []) := by rw [append_nil]
    refine hv.of_step h (append_nil _).symm hv.nodup (fun a => ?_) hperm
    rw [hv.mem]
    exact (and_iff_left (hev a)).symm
  · have hlen := ((inv_of_reachable hv.reach).length_requests_step h).1
    show (lv.requests.length : ℤ) - v.charging.length - v.completing.length = _
    rw [hlen, Volume.outstanding]
    omega

theorem VolumeInv.step (h : v.step shift act = some (v', d)) :
    VolumeInv shift v' ∧ (v.Orderly act → v'.outstanding = v.outstanding + d) := by
  cases act with
  | strategy lb =>
    rw [Volume.step] at h
    split at h
    · cases h
    · next hfresh =>
      obtain ⟨t, ht, heq⟩ := Option.map_eq_some_iff.mp h
      cases heq
      have hstep : Strategy.step shift v.st (.strategy lb) =
          some (v.start (v.st.queued ++ [lb]) t).st := by
        rw [Strategy.step, if_neg hfresh, ht]
        rfl
      have hstart := hv.start hstep fun lb h => by cases h
      refine ⟨hstart.of_perm rfl (.refl _), fun _ => ?_⟩
      have hlen := ((inv_of_reachable hv.reach).length_requests_step hstep).1
      rw [Event.added] at hlen
      show ((v.start (v.st.queued ++ [lb]) t).st.lv.requests.length : ℤ) -
        (lb :: v.charging).length - v.completing.length = _
      rw [hlen, length_cons, Volume.outstanding]
      omega
  | charge lb =>
    rw [Volume.step] at h
    split at h
    · next hlb =>
      cases h
      refine ⟨hv.of_perm rfl (.refl _), fun _ => ?_⟩
      have hcount := length_erase_of_mem hlb
      have hpos := length_pos_of_mem hlb
      show (v.st.lv.requests.length : ℤ) - (v.charging.erase lb).length -
        v.completing.length = _
      rw [Volume.outstanding]
      omega
    · cases h
  | fetch noMask =>
    obtain ⟨v₁, hv₁, heq⟩ := Option.map_eq_some_iff.mp h
    cases heq
    rw [Int.add_zero]
    exact hv.lvInitiate hv₁
  | terminate p error =>
    rw [Volume.step] at h
    split at h
    · next hp =>
      cases h
      rw [Int.add_zero]
      exact ⟨(hv.lvTerminate hp).1, fun _ => (hv.lvTerminate hp).2⟩
    · cases h
  | discharge lb =>
    rw [Volume.step] at h
    split at h
    · next hlb =>
      cases h
      have hdischarging (a : Request) : v.discharging.count a = (lb :: v.discharging.erase lb).count a :=
        (perm_cons_erase hlb).count_eq a
      refine ⟨hv.of_perm rfl (perm_iff_count.mpr fun a => ?_), fun _ => ?_⟩
      · simp only [Volume.flight, count_append, count_cons, hdischarging]
        omega
      · show (v.st.lv.requests.length : ℤ) - v.charging.length - (lb :: v.completing).length = _
        rw [length_cons, Volume.outstanding]
        omega
    · cases h
  | complete lb =>
    rw [Volume.step] at h
    split at h
    · next hlb =>
      obtain ⟨t, ht, heq⟩ := Option.map_eq_some_iff.mp h
      cases heq
      rw [Int.add_zero]
      exact ⟨(hv.complete hlb ht).1, fun _ => (hv.complete hlb ht).2⟩
    · cases h
  | pause =>
    obtain ⟨lv, hlv, heq⟩ := Option.map_eq_some_iff.mp h
    cases heq
    have hstep : Strategy.step shift v.st .pause = some { v.st with lv := lv } := by
      rw [Strategy.step, hlv]
      rfl
    exact hv.setLv hstep (fun lb h => by cases h) rfl
  | paused =>
    obtain ⟨lv, hlv, heq⟩ := Option.map_eq_some_iff.mp h
    cases heq
    have hstep : Strategy.step shift v.st .paused = some { v.st with lv := lv } := by
      rw [Strategy.step, hlv]
      rfl
    exact hv.setLv hstep (fun lb h => by cases h) rfl
  | «continue» =>
    obtain ⟨t, ht, heq⟩ := Option.map_eq_some_iff.mp h
    cases heq
    have hstep : Strategy.step shift v.st .continue = some (v.start v.st.queued t).st := by
      rw [Strategy.step, ht]
      rfl
    refine ⟨hv.start hstep (fun lb h => by cases h), fun _ => ?_⟩
    have hlen := ((inv_of_reachable hv.reach).length_requests_step hstep).1
    have hadded : Event.added .continue = 0 := rfl
    show ((v.start v.st.queued t).st.lv.requests.length : ℤ) - v.charging.length -
      v.completing.length = _
    rw [hlen, Volume.outstanding]
    omega
  | change rdonly lvsize =>
    cases h
    rw [Int.add_zero]
    exact ⟨hv.of_perm rfl (.refl _), fun _ => rfl⟩

end

end Flight

section Group

theorem Group.step_cases {ev : Fin n × Action} {g' : Group n} (h : g.step shift ev = some g') :
    ∃ v d, (g.vols ev.1).step shift ev.2 = some (v, d) ∧
      g' = ⟨update g.vols ev.1 v, g.requestcount + d⟩ := by
  obtain ⟨⟨v, d⟩, hv, rfl⟩ := Option.map_eq_some_iff.mp h
  exact ⟨v, d, hv, rfl⟩

theorem volumeInv_of_reachable (h : (group shift n).Reachable g) (i : Fin n) : VolumeInv shift (g.vols i) := by
  apply h.invariant (I := fun g => ∀ i, VolumeInv shift (g.vols i)) ?_ ?_ i
  · rintro g rfl i
    refine ⟨.init rfl, .nil, fun a => iff_of_false (fun ha => by cases ha) ?_⟩
    rintro ⟨q, hq⟩
    cases hq
  · intro g ev g' _ hg hstep j
    obtain ⟨v, d, hv, rfl⟩ := Group.step_cases hstep
    show VolumeInv shift (update g.vols ev.1 v j)
    by_cases hj : j = ev.1
    · rw [hj, update_self]
      exact ((hg ev.1).step hv).1
    · rw [update_of_ne hj]
      exact hg j

theorem outstanding_of_reachable (h : ((group shift n).restrict Orderly).Reachable g) :
    g.requestcount = ∑ i, (g.vols i).outstanding := by
  apply h.invariant (I := fun g => g.requestcount = ∑ i, (g.vols i).outstanding)
  · rintro g rfl
    simp [Volume.outstanding, Volume.idle, Lvol.idle, Lvol.requests]
  · rintro g ev g' hreach hg ⟨horderly, hstep⟩
    obtain ⟨v, d, hv, rfl⟩ := Group.step_cases hstep
    have hout := ((volumeInv_of_reachable hreach.of_restrict ev.1).step hv).2 horderly
    have hsum := sum_update Finset.univ Volume.outstanding g.vols (Finset.mem_univ ev.1) v
    show g.requestcount + d = ∑ i, (update g.vols ev.1 v i).outstanding
    omega

theorem Inv.lvPaused_isSome (hs : Inv shift s) (hpausing : s.lv.pausing = true) :
    (lvPaused s.lv).isSome ↔ ∀ lb, ¬InProgress s lb := by
  have hcomplcnt := hs.complcnt
  rw [if_pos hpausing] at hcomplcnt
  have hsome : (lvPaused s.lv).isSome ↔ s.lv.inProgress = 0 := by
    rw [lvPaused, hpausing, hcomplcnt, Bool.true_and]
    by_cases hzero : s.lv.inProgress = 0
    · rw [if_pos (decide_eq_true (Int.natCast_eq_zero.mpr hzero))]
      exact iff_of_true rfl hzero
    · rw [if_neg fun h => hzero (Int.natCast_eq_zero.mp (of_decide_eq_true h))]
      exact iff_of_false Bool.false_ne_true hzero
  rw [hsome]
  constructor
  · rintro hzero lb ⟨q, hq⟩
    cases Lvol.waits_of_inProgress hzero q hq
  · intro hnone
    refine List.sum_eq_zero_iff_forall_eq_nat.mpr fun m hm => ?_
    obtain ⟨q, -, rfl⟩ := List.mem_map.mp hm
    refine List.countP_eq_zero.mpr fun e he hruns => hnone e.item ⟨q, ?_⟩
    rw [Bool.not_eq_true'] at hruns
    exact hruns ▸ he

theorem Inv.lvComplete_isSome (hs : Inv shift s) (hlb : InProgress s lb) : (lvComplete shift s.lv lb).isSome := by
  have hstep : ∃ s', Strategy.step shift s (.complete lb) = some s' := by
    cases hpausing : s.lv.pausing with
    | true => exact ⟨_, hs.complete_of_pausing hlb hpausing⟩
    | false => exact ⟨_, hs.complete_eq hlb hpausing⟩
  obtain ⟨s', hs'⟩ := hstep
  rw [Strategy.step, if_pos hlb] at hs'
  obtain ⟨t, ht, -⟩ := Option.map_eq_some_iff.mp hs'
  rw [ht]
  rfl

/-- The counters are exact as long as no write comes to a volume that is read-only. -/
theorem counters_exact (h : ((group shift n).restrict Orderly).Reachable g) : Exact shift g := by
  have hvol (i : Fin n) := volumeInv_of_reachable h.of_restrict i
  have hinv (i : Fin n) := inv_of_reachable (hvol i).reach
  refine ⟨fun i => requestcount_of_reachable (hvol i).reach, outstanding_of_reachable h,
    fun i hpausing => ⟨?_, (hinv i).lvPaused_isSome hpausing⟩, fun i lb hlb => ?_⟩
  · have hcomplcnt := (hinv i).complcnt
    rwa [if_pos hpausing] at hcomplcnt
  · exact (hinv i).lvComplete_isSome (((hvol i).mem lb).mp (mem_append_right _ hlb))

/-- A page is read from a volume, and the request waits on `lv_ready_Q`. -/
theorem read_counters_exact :
    ∃ g : Group 1, ((group 4 1).restrict Orderly).Reachable g ∧
      g.requestcount = 1 ∧ Exact 4 g := by
  have h₀ : ((group 4 1).restrict Orderly).Reachable ⟨fun _ => .idle, 0⟩ := .init rfl
  have h₁ := h₀.step (i := ((0 : Fin 1), Action.strategy ⟨0, 0, 8192, true, false⟩))
    ⟨fun _ h => (by cases h), rfl⟩
  have h₂ := h₁.step (i := ((0 : Fin 1), Action.charge ⟨0, 0, 8192, true, false⟩))
    ⟨fun _ h => (by cases h), rfl⟩
  exact ⟨_, h₂, rfl, counters_exact h₂⟩

/-- A write comes to a volume that is read-only.  It is done, and the group still counts it. -/
theorem rdonly_counters_not_exact :
    ∃ g : Group 1, (group 4 1).Reachable g ∧ (g.vols 0).st.lv.requestcount = 0 ∧
      g.requestcount = 1 ∧ ¬Exact 4 g := by
  have h₀ : (group 4 1).Reachable ⟨fun _ => .idle, 0⟩ := .init rfl
  have h₁ := h₀.step (i := ((0 : Fin 1), Action.change true 4096)) rfl
  have h₂ := h₁.step (i := ((0 : Fin 1), Action.strategy ⟨0, 0, 8192, false, false⟩)) rfl
  have h₃ := h₂.step (i := ((0 : Fin 1), Action.charge ⟨0, 0, 8192, false, false⟩)) rfl
  have h₄ := h₃.step (i := ((0 : Fin 1), Action.fetch false)) rfl
  have h₅ := h₄.step (i := ((0 : Fin 1), Action.complete ⟨0, 0, 8192, false, false⟩)) rfl
  refine ⟨_, h₅, rfl, rfl, fun hexact => ?_⟩
  have hcount := hexact.2.1
  exact absurd hcount (by decide)

end Group

end Osf1.Strategy
