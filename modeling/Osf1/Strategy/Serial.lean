import Osf1.Computation.Tally
import Osf1.Computation.Transition
import Osf1.Strategy.Model

/-!
# Overlapping requests are done in turn

The state of a volume is recorded together with the requests in the order in which they have been queued and
in the order in which they have been started.
-/

set_option autoImplicit false

namespace Osf1.Strategy

open Function List Option

section Serial

open Osf1.Computation

/-- A logical volume.  A request is `queued` when it is put on `work_Q`, and `started` when it is
put on `lv_ready_Q`. -/
structure State where
  lv : Lvol
  queued : List Request
  started : List Request

/-- What happens to a volume.  `paused` is the end of the wait in `lv_pause`. -/
inductive Event
  | strategy (lb : Request)
  | complete (lb : Request)
  | pause
  | paused
  | continue

/-- A request is in progress. -/
def InProgress (s : State) (lb : Request) : Prop := ∃ q, ⟨lb, false⟩ ∈ s.lv.workQ q

/-- A request is blocked. -/
def Blocked (s : State) (lb : Request) : Prop := ∃ q, ⟨lb, true⟩ ∈ s.lv.workQ q

instance (s : State) : DecidablePred (InProgress s) := fun lb => by
  unfold InProgress
  infer_instance

/-- A request that comes is not one of the earlier ones, and one that completes is in progress. -/
def step (shift : ℕ) (s : State) : Event → Option State
  | .strategy lb =>
    if lb ∈ s.queued then none
    else
      (lvStrategy shift s.lv lb).map fun t =>
        ⟨t.lv, s.queued ++ [lb], s.started ++ t.ready⟩
  | .complete lb =>
    if InProgress s lb then
      (lvComplete shift s.lv lb).map fun t => ⟨t.lv, s.queued, s.started ++ t.ready⟩
    else none
  | .pause => (lvPause s.lv).map fun lv => { s with lv := lv }
  | .paused => (lvPaused s.lv).map fun lv => { s with lv := lv }
  | .continue =>
    (lvContinue shift s.lv).map fun t => ⟨t.lv, s.queued, s.started ++ t.ready⟩

/-- The runs of a volume. -/
def system (shift : ℕ) : System State Event := .ofFun ⟨.idle, [], []⟩ (step shift)

variable {shift : ℕ} {s s' : State} {lb a b : Request} {h q : Fin 64} {e : Entry}

/-- The requests on a chain. -/
def Lvol.items (lv : Lvol) (q : Fin 64) : List Request := (lv.workQ q).map Ticket.item

/-- Each chain is gone through, and what waits for nothing is started. -/
def settle (shift : ℕ) (s : State) : State where
  lv := { s.lv with workQ := fun q => admitFrom (Conflict shift) [] (s.lv.workQ q) }
  queued := s.queued
  started := s.started ++ (List.finRange 64).flatMap fun q => admitted (Conflict shift) [] (s.lv.workQ q)

/-- What holds of the chains, whether or not what waits has a reason to. -/
structure Serial (shift : ℕ) (s : State) : Prop where
  mask : ∀ a ∈ s.queued, lvWorkmask shift a = 0
  hash : ∀ q, ∀ a ∈ s.lv.items q, lvHash shift a = q
  order : ∀ q, (s.lv.items q).Sublist s.queued
  queued : s.queued.Nodup
  started : s.started.Nodup
  subset : s.started ⊆ s.queued
  runs : ∀ q, ∀ a ∈ s.lv.items q, a ∈ running (s.lv.workQ q) ↔ a ∈ s.started
  present : ∀ a ∈ s.queued, a ∉ s.started → a ∈ s.lv.items (lvHash shift a)
  exclusive : ∀ q, Exclusive (Conflict shift) [] (s.lv.workQ q)
  inTurn : ∀ a b, [a, b].Sublist s.queued → Conflict shift a b → b ∈ s.started → [a, b].Sublist s.started

theorem mem_running {q : List Entry} : a ∈ running q ↔ ⟨a, false⟩ ∈ q := by
  constructor
  · intro ha
    obtain ⟨e, he, rfl⟩ := mem_map.mp ha
    obtain ⟨hmem, hruns⟩ := mem_filter.mp he
    rw [Bool.not_eq_true'] at hruns
    rw [← hruns]
    exact hmem
  · intro ha
    exact mem_map.mpr ⟨⟨a, false⟩, mem_filter.mpr ⟨ha, rfl⟩, rfl⟩

theorem Lvol.items_settle (q : Fin 64) : (settle shift s).lv.items q = s.lv.items q := map_item_admitFrom

theorem Lvol.mem_items (he : e ∈ s.lv.workQ q) : e.item ∈ s.lv.items q := mem_map_of_mem he

theorem mem_settle_started :
    a ∈ (settle shift s).started ↔
      a ∈ s.started ∨ ∃ q, a ∈ admitted (Conflict shift) [] (s.lv.workQ q) := by
  show a ∈ s.started ++ _ ↔ _
  rw [mem_append, mem_flatMap]
  apply or_congr_right
  exact ⟨fun ⟨q, _, ha⟩ => ⟨q, ha⟩, fun ⟨q, ha⟩ => ⟨q, mem_finRange q, ha⟩⟩

section

variable (hs : Serial shift s)
include hs

theorem Serial.not_started_of_waits (ha : ⟨a, true⟩ ∈ s.lv.workQ q) : a ∉ s.started := by
  intro hstarted
  have hruns := mem_running.mp ((hs.runs q a (Lvol.mem_items ha)).mpr hstarted)
  have hnodup : ((s.lv.workQ q).map Ticket.item).Nodup := hs.queued.sublist (hs.order q)
  cases inj_on_of_nodup_map hnodup hruns ha rfl

theorem Serial.not_started_of_admitted (ha : a ∈ admitted (Conflict shift) [] (s.lv.workQ q)) :
    a ∈ s.lv.items q ∧ a ∉ s.started := by
  obtain ⟨q₁, q₂, heq, -⟩ := clear_of_admitted ha
  refine ⟨admitted_sublist.subset ha, hs.not_started_of_waits (q := q) ?_⟩
  rw [heq]
  exact mem_append_right _ (mem_cons_self ..)

theorem Serial.inTurn_of_admitted
    (hb : b ∈ admitted (Conflict shift) [] (s.lv.workQ q)) (hab : [a, b].Sublist s.queued)
    (hconflict : Conflict shift a b) : a ∈ s.started := by
  by_contra hnot
  have hbq := (hs.not_started_of_admitted hb).1
  have ha : a ∈ s.queued := hab.subset (mem_cons_self ..)
  have hpresent := hs.present a ha hnot
  rw [hconflict.lvHash_eq, hs.hash q b hbq] at hpresent
  obtain ⟨q₁, q₂, heq, hclear⟩ := clear_of_admitted hb
  have hitems : s.lv.items q = q₁.map Ticket.item ++ b :: q₂.map Ticket.item := by
    rw [Lvol.items, heq, map_append, map_cons]
  rw [hitems, mem_append, mem_cons] at hpresent
  rcases hpresent with hbefore | rfl | hafter
  · exact hclear a hbefore hconflict
  · exact not_pair_sublist_swap hs.queued hab hab
  · have hswap : [b, a].Sublist (s.lv.items q) := by
      rw [hitems]
      exact sublist_append_of_sublist_right
        ((singleton_sublist.mpr hafter).cons_cons b)
    exact not_pair_sublist_swap hs.queued hab (hswap.trans (hs.order q))

theorem Serial.settle : Serial shift (settle shift s) where
  mask := hs.mask
  hash q := by
    rw [Lvol.items_settle]
    exact hs.hash q
  order q := by
    rw [Lvol.items_settle]
    exact hs.order q
  queued := hs.queued
  started := by
    have hready : ((finRange 64).flatMap fun q =>
        admitted (Conflict shift) [] (s.lv.workQ q)).Nodup := by
      refine nodup_flatMap.mpr ⟨fun q _ => ?_, ?_⟩
      · exact (hs.queued.sublist (hs.order q)).sublist admitted_sublist
      · refine (nodup_finRange 64).imp fun {q q'} hne a ha ha' => hne ?_
        rw [← hs.hash q a (hs.not_started_of_admitted ha).1]
        exact hs.hash q' a (hs.not_started_of_admitted ha').1
    refine nodup_append'.mpr ⟨hs.started, hready, fun a ha hadm => ?_⟩
    obtain ⟨q, -, hadm⟩ := mem_flatMap.mp hadm
    exact (hs.not_started_of_admitted hadm).2 ha
  subset a ha := by
    rcases mem_settle_started.mp ha with ha | ⟨q, ha⟩
    · exact hs.subset ha
    · exact (hs.order q).subset (hs.not_started_of_admitted ha).1
  runs q a ha := by
    rw [Lvol.items_settle] at ha
    rw [mem_settle_started]
    show a ∈ running (admitFrom (Conflict shift) [] (s.lv.workQ q)) ↔ _
    rw [running_admitFrom, hs.runs q a ha]
    apply or_congr_right
    refine ⟨fun hadm => ⟨q, hadm⟩, fun ⟨q', hadm⟩ => ?_⟩
    rw [← hs.hash q a ha, hs.hash q' a (hs.not_started_of_admitted hadm).1]
    exact hadm
  present a ha hnot := by
    rw [Lvol.items_settle]
    exact hs.present a ha fun hold => hnot (mem_settle_started.mpr (.inl hold))
  exclusive q := (hs.exclusive q).admitFrom
  inTurn a b hab hconflict hb := by
    rcases mem_settle_started.mp hb with hb | ⟨q, hb⟩
    · exact (hs.inTurn a b hab hconflict hb).trans (sublist_append_left ..)
    · have ha := hs.inTurn_of_admitted hb hab hconflict
      have hready : b ∈ (finRange 64).flatMap fun q =>
          admitted (Conflict shift) [] (s.lv.workQ q) :=
        mem_flatMap.mpr ⟨q, mem_finRange q, hb⟩
      exact (singleton_sublist.mpr ha).append (singleton_sublist.mpr hready)

end

/-- A request is put behind the others and waits. -/
def enqueue (shift : ℕ) (s : State) (lb : Request) : State where
  lv := { s.lv with
    workQ := update s.lv.workQ (lvHash shift lb)
      (s.lv.workQ (lvHash shift lb) ++ [waiting lb])
    requestcount := s.lv.requestcount + 1 }
  queued := s.queued ++ [lb]
  started := s.started

theorem workQ_enqueue_self :
    (enqueue shift s lb).lv.workQ (lvHash shift lb) = s.lv.workQ (lvHash shift lb) ++ [waiting lb] :=
  update_self ..

theorem workQ_enqueue_of_ne (hq : q ≠ lvHash shift lb) : (enqueue shift s lb).lv.workQ q = s.lv.workQ q :=
  update_of_ne hq ..

theorem running_append_waiting (bp : List Entry) : running (bp ++ [waiting lb]) = running bp := by
  simp [running]

theorem Serial.enqueue (hs : Serial shift s) (hmask : lvWorkmask shift lb = 0)
    (hfresh : lb ∉ s.queued) : Serial shift (enqueue shift s lb) := by
  have hitems (q : Fin 64) : (Strategy.enqueue shift s lb).lv.items q =
      s.lv.items q ++ if q = lvHash shift lb then [lb] else [] := by
    by_cases hq : q = lvHash shift lb
    · rw [hq, if_pos rfl, Lvol.items, workQ_enqueue_self, map_append]
      rfl
    · rw [if_neg hq, Lvol.items, workQ_enqueue_of_ne hq, append_nil]
      rfl
  have hrunning (q : Fin 64) :
      running ((Strategy.enqueue shift s lb).lv.workQ q) = running (s.lv.workQ q) := by
    by_cases hq : q = lvHash shift lb
    · rw [hq, workQ_enqueue_self, running_append_waiting]
    · rw [workQ_enqueue_of_ne hq]
  have hmem (q : Fin 64) (a : Request) : a ∈ (Strategy.enqueue shift s lb).lv.items q ↔
      a ∈ s.lv.items q ∨ q = lvHash shift lb ∧ a = lb := by
    rw [hitems, mem_append]
    apply or_congr_right
    split
    · next hq => simp [hq]
    · next hq => simp [hq]
  have hlb : lb ∉ s.started := fun h => hfresh (hs.subset h)
  have hnodup : (s.queued ++ [lb]).Nodup := by
    refine nodup_append'.mpr ⟨hs.queued, nodup_singleton lb, ?_⟩
    rw [disjoint_singleton]
    exact hfresh
  exact
    { mask := forall_mem_append.mpr ⟨hs.mask, forall_mem_singleton.mpr hmask⟩
      hash := by
        intro q a ha
        rcases (hmem q a).mp ha with ha | ⟨rfl, rfl⟩
        · exact hs.hash q a ha
        · rfl
      order := by
        intro q
        rw [hitems]
        apply (hs.order q).append
        split
        · exact .refl _
        · exact nil_sublist _
      queued := hnodup
      started := hs.started
      subset := fun a ha => mem_append_left _ (hs.subset ha)
      runs := by
        intro q a ha
        rw [hrunning]
        rcases (hmem q a).mp ha with ha | ⟨-, rfl⟩
        · exact hs.runs q a ha
        · refine iff_of_false (fun hruns => ?_) hlb
          have hitem : a ∈ s.lv.items q := Lvol.mem_items (mem_running.mp hruns)
          exact hfresh ((hs.order q).subset hitem)
      present := by
        intro a ha hnot
        rcases mem_append.mp ha with ha | ha
        · exact (hmem _ a).mpr (.inl (hs.present a ha hnot))
        · obtain rfl := mem_singleton.mp ha
          exact (hmem _ a).mpr (.inr ⟨rfl, rfl⟩)
      exclusive := by
        intro q
        by_cases hq : q = lvHash shift lb
        · rw [hq, workQ_enqueue_self]
          exact (hs.exclusive _).concat fun hruns => by cases hruns
        · rw [workQ_enqueue_of_ne hq]
          exact hs.exclusive q
      inTurn := by
        intro a b hab hconflict hb
        exact hs.inTurn a b (pair_sublist_of_concat hnodup (hs.subset hb) hab) hconflict hb }

/-- A request is taken out of its chain. -/
def dequeue (shift : ℕ) (s : State) (lb : Request) (complcnt : ℤ) : State where
  lv := { s.lv with
    workQ := update s.lv.workQ (lvHash shift lb)
      ((s.lv.workQ (lvHash shift lb)).filter fun e => e.item ≠ lb)
    complcnt := complcnt
    requestcount := s.lv.requestcount - 1 }
  queued := s.queued
  started := s.started

variable {complcnt : ℤ}

theorem workQ_dequeue_self :
    (dequeue shift s lb complcnt).lv.workQ (lvHash shift lb) =
      (s.lv.workQ (lvHash shift lb)).filter fun e => e.item ≠ lb :=
  update_self ..

theorem workQ_dequeue_of_ne (hq : q ≠ lvHash shift lb) : (dequeue shift s lb complcnt).lv.workQ q = s.lv.workQ q :=
  update_of_ne hq ..

theorem mem_workQ_dequeue :
    e ∈ (dequeue shift s lb complcnt).lv.workQ q ↔
      e ∈ s.lv.workQ q ∧ (q = lvHash shift lb → e.item ≠ lb) := by
  by_cases hq : q = lvHash shift lb
  · rw [hq, workQ_dequeue_self, mem_filter]
    simp
  · rw [workQ_dequeue_of_ne hq]
    simp [hq]

theorem Serial.dequeue (hs : Serial shift s) (hlb : lb ∈ s.started) :
    Serial shift (dequeue shift s lb complcnt) := by
  have hsub (q : Fin 64) :
      ((Strategy.dequeue shift s lb complcnt).lv.workQ q).Sublist (s.lv.workQ q) := by
    by_cases hq : q = lvHash shift lb
    · rw [hq, workQ_dequeue_self]
      exact filter_sublist
    · rw [workQ_dequeue_of_ne hq]
  have hitems (q : Fin 64) :
      ((Strategy.dequeue shift s lb complcnt).lv.items q).Sublist (s.lv.items q) :=
    (hsub q).map _
  exact
    { mask := hs.mask
      hash := fun q a ha => hs.hash q a ((hitems q).subset ha)
      order := fun q => (hitems q).trans (hs.order q)
      queued := hs.queued
      started := hs.started
      subset := hs.subset
      runs := by
        intro q a ha
        refine Iff.trans ?_ (hs.runs q a ((hitems q).subset ha))
        rw [mem_running, mem_running, mem_workQ_dequeue]
        refine and_iff_left_of_imp fun _ hq => ?_
        obtain ⟨e, he, rfl⟩ := mem_map.mp ha
        exact (mem_workQ_dequeue.mp he).2 hq
      present := by
        intro a ha hnot
        obtain ⟨e, he, rfl⟩ := mem_map.mp (hs.present a ha hnot)
        have hne : e.item ≠ lb := fun heq => hnot (heq ▸ hlb)
        exact Lvol.mem_items (mem_workQ_dequeue.mpr ⟨he, fun _ => hne⟩)
      exclusive := fun q => (hs.exclusive q).sublist (List.Subset.refl _) (hsub q)
      inTurn := hs.inTurn }

end Serial

/-!
## The runs of a volume

Requests in progress have no page in common, requests with a common page are started in the order
in which they are queued, and a volume that is not paused holds back no request without need.
-/

section Overlap

open Osf1.Computation

variable {shift : ℕ} {s s' : State} {lb a b : Request} {q : Fin 64} {e : Entry} {ev : Event}

/-- The requests in progress, as `lv_pause` counts them. -/
def Lvol.inProgress (lv : Lvol) : ℕ := ((List.finRange 64).map fun q => lvWorkqcount (lv.workQ q)).sum

structure Inv (shift : ℕ) (s : State) : Prop where
  serial : Serial shift s
  justified : s.lv.pausing = false → s.lv.paused = false → ∀ q, Justified (Conflict shift) [] (s.lv.workQ q)
  waits : s.lv.paused = true → ∀ q, ∀ e ∈ s.lv.workQ q, e.waits = true
  complcnt : s.lv.complcnt = if s.lv.pausing then (s.lv.inProgress : ℤ) else 0
  once : s.lv.pausing = true → s.lv.paused = false

theorem flatMap_eq_of_nil {ι α : Type*} {l : List ι} {f : ι → List α} {i : ι} (hl : l.Nodup)
    (hi : i ∈ l) (hnil : ∀ j, j ≠ i → f j = []) : l.flatMap f = f i := by
  obtain ⟨l₁, l₂, rfl⟩ := append_of_mem hi
  have hnot := nodup_middle.mp hl
  have hzero (l' : List ι) (hsub : l' ⊆ l₁ ++ l₂) : l'.flatMap f = [] := by
    apply flatMap_eq_nil_iff.mpr
    intro j hj
    exact hnil j fun heq => (nodup_cons.mp hnot).1 (heq ▸ hsub hj)
  rw [flatMap_append, flatMap_cons, hzero l₁ (subset_append_left ..),
    hzero l₂ (subset_append_right ..), nil_append, append_nil]

theorem settle_eq (i : Fin 64) (h : ∀ q, q ≠ i → Justified (Conflict shift) [] (s.lv.workQ q)) :
    settle shift s =
      { lv := { s.lv with
          workQ := update s.lv.workQ i
            (admitFrom (Conflict shift) [] (s.lv.workQ i)) }
        queued := s.queued
        started := s.started ++ admitted (Conflict shift) [] (s.lv.workQ i) } := by
  have hchains : (fun q => admitFrom (Conflict shift) [] (s.lv.workQ q)) =
      update s.lv.workQ i (admitFrom (Conflict shift) [] (s.lv.workQ i)) := by
    funext q
    by_cases hq : q = i
    · rw [hq, update_self]
    · rw [update_of_ne hq, (h q hq).admitFrom_eq]
  have hready := flatMap_eq_of_nil (f := fun q => admitted (Conflict shift) [] (s.lv.workQ q))
    (nodup_finRange 64) (mem_finRange i) fun q hq => (h q hq).admitted_eq_nil
  rw [settle, hchains, hready]

theorem lvWorkmask_of_strategy (h : step shift s (.strategy lb) = some s') :
    lvWorkmask shift lb = 0 ∧ lb ∉ s.queued := by
  rw [step] at h
  split at h
  · cases h
  · next hfresh =>
    refine ⟨?_, hfresh⟩
    by_contra hmask
    have hnone : lvStrategy shift s.lv lb = none := by
      rw [lvStrategy, lvBlock, if_pos hmask]
      rfl
    rw [hnone] at h
    cases h

theorem strategy_of_flag (hmask : lvWorkmask shift lb = 0) (hfresh : lb ∉ s.queued)
    (hflag : (s.lv.pausing || s.lv.paused) = true) : step shift s (.strategy lb) = some (enqueue shift s lb) := by
  rw [step, if_neg hfresh, lvStrategy, hflag, lvBlock_of_flag hmask, map_some, map_some, append_nil]
  rfl

theorem Inv.strategy_eq (hs : Inv shift s) (hmask : lvWorkmask shift lb = 0)
    (hfresh : lb ∉ s.queued) (hflag : (s.lv.pausing || s.lv.paused) = false) :
    step shift s (.strategy lb) = some (settle shift (enqueue shift s lb)) := by
  obtain ⟨hpausing, hpaused⟩ := Bool.or_eq_false_iff.mp hflag
  have hjust := hs.justified hpausing hpaused
  have hother : ∀ q, q ≠ lvHash shift lb →
      Justified (Conflict shift) [] ((enqueue shift s lb).lv.workQ q) := by
    intro q hq
    rw [workQ_enqueue_of_ne hq]
    exact hjust q
  rw [settle_eq _ hother, workQ_enqueue_self, admitFrom_append, admitted_append,
    (hjust _).admitFrom_eq, (hjust _).admitted_eq_nil, step, if_neg hfresh, lvStrategy, hflag,
    lvBlock_eq hmask, map_some, map_some, nil_append, nil_append]
  simp only [enqueue, update_idem, hpausing, hpaused]

theorem Serial.chain_of_inProgress (hs : Serial shift s) (hlb : InProgress s lb) :
    lb ∈ s.started ∧ ∃ older newer,
      s.lv.workQ (lvHash shift lb) = older ++ ⟨lb, false⟩ :: newer ∧
      lb ∉ older.map Ticket.item ∧
      (s.lv.workQ (lvHash shift lb)).filter (fun e => e.item ≠ lb) = older ++ newer := by
  obtain ⟨q, hq⟩ := hlb
  have hitem : lb ∈ s.lv.items q := Lvol.mem_items hq
  have hhash := hs.hash q lb hitem
  subst hhash
  obtain ⟨older, newer, heq⟩ := append_of_mem hq
  have hnodup := hs.queued.sublist (hs.order (lvHash shift lb))
  rw [Lvol.items, heq, map_append, map_cons, nodup_middle, ← map_append]
    at hnodup
  have hnot : lb ∉ (older ++ newer).map Ticket.item := (nodup_cons.mp hnodup).1
  have hkeep : ∀ e ∈ older ++ newer, e.item ≠ lb := fun e he heq => hnot (heq ▸ mem_map_of_mem he)
  refine ⟨(hs.runs _ lb hitem).mp (mem_running.mpr hq), older, newer, heq, ?_, ?_⟩
  · exact fun h => hnot (map_append ▸ mem_append_left _ h)
  · rw [heq, filter_append, filter_cons_of_neg (by simp), ← filter_append]
    apply filter_eq_self.mpr
    intro e he
    exact decide_eq_true (hkeep e he)

section

variable (hs : Inv shift s)
include hs

theorem Inv.complete_of_pausing (hlb : InProgress s lb) (hpausing : s.lv.pausing = true) :
    step shift s (.complete lb) = some (dequeue shift s lb (s.lv.complcnt - 1)) := by
  obtain ⟨-, older, newer, hchain, hnot, hfilter⟩ := hs.serial.chain_of_inProgress hlb
  rw [step, if_pos hlb, lvComplete, hchain, lvUnblock_eq rfl hnot, hpausing, if_pos rfl,
    bind_some, hs.once hpausing, if_neg Bool.false_ne_true, map_some,
    append_nil, ← hfilter, if_pos rfl]
  simp only [dequeue, hpausing, hs.once hpausing]

theorem Inv.complete_eq (hlb : InProgress s lb) (hpausing : s.lv.pausing = false) :
    step shift s (.complete lb) =
      some (settle shift (dequeue shift s lb s.lv.complcnt)) := by
  obtain ⟨-, older, newer, hchain, hnot, hfilter⟩ := hs.serial.chain_of_inProgress hlb
  have hpaused : s.lv.paused = false := by
    apply Bool.eq_false_iff.mpr
    intro hpaused
    obtain ⟨q, hq⟩ := hlb
    cases hs.waits hpaused q _ hq
  have hjust := hs.justified hpausing hpaused
  have holder := (justified_append.mp (hchain ▸ hjust (lvHash shift lb))).1
  have hother : ∀ q, q ≠ lvHash shift lb →
      Justified (Conflict shift) [] ((dequeue shift s lb s.lv.complcnt).lv.workQ q) := by
    intro q hq
    rw [workQ_dequeue_of_ne hq]
    exact hjust q
  rw [settle_eq _ hother, workQ_dequeue_self, hfilter, admitFrom_append, admitted_append,
    holder.admitFrom_eq, holder.admitted_eq_nil, step, if_pos hlb, lvComplete, hchain,
    lvUnblock_eq rfl hnot, hpausing, if_neg Bool.false_ne_true, bind_some, hpaused,
    if_neg Bool.false_ne_true, map_some, nil_append, nil_append]
  simp only [dequeue, update_idem, Bool.false_eq_true, if_false, hpausing, hpaused]

theorem Inv.continue_eq (h : step shift s .continue = some s') :
    s' = settle shift { s with lv := { s.lv with paused := false } } := by
  obtain ⟨t, ht, rfl⟩ := map_eq_some_iff.mp h
  rw [lvContinue] at ht
  split at ht
  · next hc =>
    have hpaused : s.lv.paused = true := by
      rw [Bool.and_eq_true, Bool.and_eq_true] at hc
      exact hc.1.1
    have hchain (q : Fin 64) : reblock shift [] (s.lv.workQ q) =
        some ⟨admitFrom (Conflict shift) [] (s.lv.workQ q),
          admitted (Conflict shift) [] (s.lv.workQ q)⟩ := by
      refine reblock_eq (fun e he => ?_) (hs.waits hpaused q)
      exact hs.serial.mask _ ((hs.serial.order q).subset (Lvol.mem_items he))
    simp only [hchain, getD_some] at ht
    cases ht
    rfl
  · cases ht

theorem Inv.step_cases (h : step shift s ev = some s') :
    (∃ lb, ev = .strategy lb ∧ lvWorkmask shift lb = 0 ∧ lb ∉ s.queued ∧
      ((s.lv.pausing || s.lv.paused) = true ∧ s' = enqueue shift s lb ∨
        (s.lv.pausing || s.lv.paused) = false ∧ s' = settle shift (enqueue shift s lb))) ∨
    (∃ lb, ev = .complete lb ∧ InProgress s lb ∧
      (s.lv.pausing = true ∧ s' = dequeue shift s lb (s.lv.complcnt - 1) ∨
        s.lv.pausing = false ∧ s' = settle shift (dequeue shift s lb s.lv.complcnt))) ∨
    (ev = .pause ∧ s.lv.pausing = false ∧ s.lv.paused = false ∧
      s' = { s with lv := { s.lv with
        pausing := true
        complcnt := s.lv.complcnt + s.lv.inProgress } }) ∨
    (ev = .paused ∧ s.lv.pausing = true ∧ s.lv.complcnt = 0 ∧
      s' = { s with lv := { s.lv with pausing := false, paused := true } }) ∨
    (ev = .continue ∧ s.lv.paused = true ∧
      s' = settle shift { s with lv := { s.lv with paused := false } }) := by
  cases ev with
  | strategy lb =>
    obtain ⟨hmask, hfresh⟩ := lvWorkmask_of_strategy h
    refine .inl ⟨lb, rfl, hmask, hfresh, ?_⟩
    cases hflag : s.lv.pausing || s.lv.paused with
    | true =>
      rw [strategy_of_flag hmask hfresh hflag] at h
      exact .inl ⟨rfl, (some.inj h).symm⟩
    | false =>
      rw [hs.strategy_eq hmask hfresh hflag] at h
      exact .inr ⟨rfl, (some.inj h).symm⟩
  | complete lb =>
    have hlb : InProgress s lb := by
      by_contra hnot
      rw [step, if_neg hnot] at h
      cases h
    refine .inr (.inl ⟨lb, rfl, hlb, ?_⟩)
    cases hpausing : s.lv.pausing with
    | true =>
      rw [hs.complete_of_pausing hlb hpausing] at h
      exact .inl ⟨rfl, (some.inj h).symm⟩
    | false =>
      rw [hs.complete_eq hlb hpausing] at h
      exact .inr ⟨rfl, (some.inj h).symm⟩
  | pause =>
    obtain ⟨lv, hlv, rfl⟩ := map_eq_some_iff.mp h
    rw [lvPause] at hlv
    split at hlv
    · cases hlv
    · next hflag =>
      rw [Bool.not_eq_true, Bool.or_eq_false_iff] at hflag
      cases hlv
      exact .inr (.inr (.inl ⟨rfl, hflag.2, hflag.1, rfl⟩))
  | paused =>
    obtain ⟨lv, hlv, rfl⟩ := map_eq_some_iff.mp h
    rw [lvPaused] at hlv
    split at hlv
    · next hflag =>
      rw [Bool.and_eq_true, decide_eq_true_eq] at hflag
      cases hlv
      exact .inr (.inr (.inr (.inl ⟨rfl, hflag.1, hflag.2, rfl⟩)))
    · cases hlv
  | «continue» =>
    refine .inr (.inr (.inr (.inr ⟨rfl, ?_, hs.continue_eq h⟩)))
    obtain ⟨t, ht, -⟩ := map_eq_some_iff.mp h
    rw [lvContinue] at ht
    split at ht
    · next hc =>
      rw [Bool.and_eq_true, Bool.and_eq_true] at hc
      exact hc.1.1
    · cases ht

end

theorem Lvol.inProgress_update (lv lv' : Lvol) (i : Fin 64) (q : List Entry) (h : lv'.workQ = update lv.workQ i q) :
    lv'.inProgress + lvWorkqcount (lv.workQ i) = lv.inProgress + lvWorkqcount q := by
  have hsum := sum_update Finset.univ lvWorkqcount lv.workQ (Finset.mem_univ i) q
  rw [inProgress, inProgress, ← Fin.sum_univ_def, ← Fin.sum_univ_def, h]
  exact hsum

theorem inProgress_enqueue : (enqueue shift s lb).lv.inProgress = s.lv.inProgress := by
  have hsum := Lvol.inProgress_update s.lv (enqueue shift s lb).lv (lvHash shift lb) _ rfl
  have hcount : lvWorkqcount (s.lv.workQ (lvHash shift lb) ++ [waiting lb]) =
      lvWorkqcount (s.lv.workQ (lvHash shift lb)) := by
    rw [lvWorkqcount, countP_append]
    rfl
  omega

theorem Serial.inProgress_dequeue {c : ℤ} (hs : Serial shift s) (hlb : InProgress s lb) :
    (Strategy.dequeue shift s lb c).lv.inProgress + 1 = s.lv.inProgress := by
  obtain ⟨-, older, newer, hchain, -, hfilter⟩ := hs.chain_of_inProgress hlb
  have hsum := Lvol.inProgress_update s.lv (Strategy.dequeue shift s lb c).lv (lvHash shift lb) _ rfl
  rw [hfilter, hchain, lvWorkqcount, lvWorkqcount, countP_append, countP_append,
    countP_cons_of_pos (by rfl)] at hsum
  omega

theorem Lvol.waits_of_inProgress {lv : Lvol} (h : lv.inProgress = 0) (q : Fin 64)
    (he : e ∈ lv.workQ q) : e.waits = true := by
  have hq : lvWorkqcount (lv.workQ q) = 0 :=
    List.sum_eq_zero_iff_forall_eq_nat.mp h _ (List.mem_map_of_mem (List.mem_finRange q))
  have hnot := List.countP_eq_zero.mp hq e he
  rw [Bool.not_eq_true, Bool.not_eq_false'] at hnot
  exact hnot

theorem Serial.of_workQ {lv : Lvol} (hs : Serial shift s) (h : lv.workQ = s.lv.workQ) :
    Serial shift { s with lv := lv } := by
  obtain ⟨workQ, pausing, paused, complcnt, requestcount⟩ := lv
  subst h
  exact ⟨hs.mask, hs.hash, hs.order, hs.queued, hs.started, hs.subset, hs.runs, hs.present, hs.exclusive, hs.inTurn⟩

theorem Inv.complcnt_eq_zero (hs : Inv shift s) (h : s.lv.pausing = false) : s.lv.complcnt = 0 := by
  rw [hs.complcnt, if_neg (Bool.eq_false_iff.mp h)]

theorem Inv.step (hs : Inv shift s) (h : step shift s ev = some s') : Inv shift s' := by
  rcases hs.step_cases h with ⟨lb, -, hmask, hfresh, hcase⟩ | ⟨lb, -, hlb, hcase⟩ |
    ⟨-, hpausing, hpaused, rfl⟩ | ⟨-, hpausing, hzero, rfl⟩ | ⟨-, hpaused, rfl⟩
  · have hserial := hs.serial.enqueue hmask hfresh
    rcases hcase with ⟨hflag, rfl⟩ | ⟨hflag, rfl⟩
    · refine ⟨hserial, fun hpausing hpaused => ?_, fun hpaused q e he => ?_, ?_, hs.once⟩
      · have hpausing : s.lv.pausing = false := hpausing
        have hpaused : s.lv.paused = false := hpaused
        rw [hpausing, hpaused] at hflag
        cases hflag
      · by_cases hq : q = lvHash shift lb
        · rw [hq, workQ_enqueue_self] at he
          rcases mem_append.mp he with he | he
          · exact hs.waits hpaused _ e he
          · rw [mem_singleton.mp he]
        · rw [workQ_enqueue_of_ne hq] at he
          exact hs.waits hpaused _ e he
      · rw [inProgress_enqueue]
        exact hs.complcnt
    · obtain ⟨hpausing, hpaused⟩ := Bool.or_eq_false_iff.mp hflag
      refine ⟨hserial.settle, fun _ _ q => justified_admitFrom, fun h => ?_, ?_, hs.once⟩
      · cases hpaused.symm.trans h
      · show s.lv.complcnt = if s.lv.pausing = true then _ else _
        rw [if_neg (Bool.eq_false_iff.mp hpausing)]
        exact hs.complcnt_eq_zero hpausing
  · have hstarted := (hs.serial.chain_of_inProgress hlb).1
    have hserial (c : ℤ) : Serial shift (dequeue shift s lb c) := hs.serial.dequeue hstarted
    rcases hcase with ⟨hpausing, rfl⟩ | ⟨hpausing, rfl⟩
    · refine ⟨hserial _, fun h => ?_, fun h => ?_, ?_, hs.once⟩
      · cases hpausing.symm.trans h
      · cases (hs.once hpausing).symm.trans h
      · have hcount := hs.serial.inProgress_dequeue (c := s.lv.complcnt - 1) hlb
        have hcomplcnt := hs.complcnt
        rw [if_pos hpausing] at hcomplcnt
        show s.lv.complcnt - 1 = if s.lv.pausing = true then _ else _
        rw [if_pos hpausing]
        omega
    · refine ⟨(hserial _).settle, fun _ _ q => justified_admitFrom, fun h => ?_, ?_, hs.once⟩
      · obtain ⟨q, hq⟩ := hlb
        cases hs.waits h q _ hq
      · show s.lv.complcnt = if s.lv.pausing = true then _ else _
        rw [if_neg (Bool.eq_false_iff.mp hpausing)]
        exact hs.complcnt_eq_zero hpausing
  · refine ⟨hs.serial.of_workQ rfl, fun h => ?_, fun h => ?_, ?_, fun _ => hpaused⟩
    · cases h
    · cases hpaused.symm.trans h
    · show s.lv.complcnt + (s.lv.inProgress : ℤ) = if true = true then _ else _
      rw [hs.complcnt_eq_zero hpausing, Int.zero_add, if_pos rfl]
      rfl
  · have hcount : s.lv.inProgress = 0 := by
      have hcomplcnt := hs.complcnt
      rw [hzero, if_pos hpausing] at hcomplcnt
      exact_mod_cast hcomplcnt.symm
    refine ⟨hs.serial.of_workQ rfl, fun _ h => ?_, fun _ q e he => Lvol.waits_of_inProgress hcount q he, hzero, fun h => ?_⟩
    · cases h
    · cases h
  · have hpausing : s.lv.pausing = false := by
      apply Bool.eq_false_iff.mpr
      intro hpausing
      cases (hs.once hpausing).symm.trans hpaused
    have hserial : Serial shift { s with lv := { s.lv with paused := false } } := hs.serial.of_workQ rfl
    refine ⟨hserial.settle, fun _ _ q => justified_admitFrom, fun h => ?_, ?_, fun _ => rfl⟩
    · cases h
    · show s.lv.complcnt = if s.lv.pausing = true then _ else _
      rw [if_neg (Bool.eq_false_iff.mp hpausing)]
      exact hs.complcnt_eq_zero hpausing

theorem inv_of_reachable (h : (system shift).Reachable s) : Inv shift s := by
  apply h.invariant
  · rintro s rfl
    refine ⟨⟨?_, ?_, fun q => .slnil, .nil, .nil, List.Subset.refl _, ?_, ?_, fun q => trivial, ?_⟩,
      fun _ _ q => trivial, fun h => ?_, rfl, fun _ => rfl⟩
    · exact fun a ha => by cases ha
    · exact fun q a ha => by cases ha
    · exact fun q a ha => by cases ha
    · exact fun a ha => by cases ha
    · exact fun a b _ _ hb => by cases hb
    · cases h
  · exact fun s ev t _ hs hstep => hs.step hstep

theorem Serial.disjoint (hs : Serial shift s) (ha : InProgress s a) (hb : InProgress s b)
    (hne : a ≠ b) : Disjoint (pages shift a) (pages shift b) := by
  obtain ⟨p, hp⟩ := ha
  obtain ⟨q, hq⟩ := hb
  have hpa : a ∈ s.lv.items p := Lvol.mem_items hp
  have hqb : b ∈ s.lv.items q := Lvol.mem_items hq
  have hmaska := hs.mask a ((hs.order p).subset hpa)
  have hmaskb := hs.mask b ((hs.order q).subset hqb)
  by_contra hoverlap
  have hconflict := (conflict_iff hmaska hmaskb).mpr hoverlap
  have hsame : p = q := by
    rw [← hs.hash p a hpa, hconflict.lvHash_eq, hs.hash q b hqb]
  subst hsame
  have hpair := (hs.exclusive p).pairwise
  obtain ⟨l₁, l₂, heq⟩ := append_of_mem hp
  rw [heq] at hq hpair
  have hsplit := pairwise_append.mp hpair
  rcases mem_append.mp hq with hq | hq
  · refine hsplit.2.2 _ hq _ (mem_cons_self ..) rfl ?_
    exact (conflict_iff hmaskb hmaska).mpr fun h => hoverlap h.symm
  · rcases mem_cons.mp hq with hq | hq
    · exact hne (congrArg Ticket.item hq).symm
    · exact (pairwise_cons.mp hsplit.2.1).1 _ hq rfl hconflict

theorem Serial.blocked_iff (hs : Serial shift s) (ha : a ∈ s.queued) : Blocked s a ↔ a ∉ s.started := by
  refine ⟨fun ⟨q, hq⟩ => hs.not_started_of_waits hq, fun hnot => ?_⟩
  obtain ⟨e, he, rfl⟩ := mem_map.mp (hs.present a ha hnot)
  refine ⟨lvHash shift e.item, ?_⟩
  have hwaits : e.waits = true := by
    by_contra hruns
    rw [Bool.not_eq_true] at hruns
    exact hnot ((hs.runs _ _ (Lvol.mem_items he)).mp (mem_running.mpr (hruns ▸ he)))
  exact hwaits ▸ he

end Overlap

end Osf1.Strategy
