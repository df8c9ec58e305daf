import Osf1.Runq.Model

/-!
# What holds of the run queues

A thread whose `runq` names a run queue is in it, once, at the index that its scheduled priority gives, and
the others are in none; `count` counts the threads, and no queue in front of `low` has any.
-/

set_option autoImplicit false

namespace Osf1.Runq

open Function List

open Osf1.Computation

variable {T P S : Type} [DecidableEq T] [DecidableEq P] [DecidableEq S] {s s' : Sched T P S} {th : T}
  {rq : RunqOf P S} {i : ℕ}

/-- Where a thread is queued. -/
def Thread.place (thread : Thread P S) : Option (RunqOf P S × ℕ) := thread.runq.map fun rq => (rq, thread.whichq)

omit [DecidableEq P] [DecidableEq S] in
theorem Thread.whichq_eq_min (thread : Thread P S) : thread.whichq = min thread.schedPri (NRQS - 1) := by
  unfold Thread.whichq NRQS
  split
  · omega
  · omega

omit [DecidableEq P] [DecidableEq S] in
theorem Thread.whichq_lt (thread : Thread P S) : thread.whichq < NRQS := by
  have hpos : 0 < NRQS := by decide
  rw [Thread.whichq_eq_min]
  omega

omit [DecidableEq P] [DecidableEq S] in
@[simp] theorem Thread.place_eq_none_iff {thread : Thread P S} : thread.place = none ↔ thread.runq = none :=
  Option.map_eq_none_iff

omit [DecidableEq P] [DecidableEq S] in
theorem Thread.place_eq_some_iff {thread : Thread P S} :
    thread.place = some (rq, i) ↔ thread.runq = some rq ∧ i = thread.whichq := by
  simp only [Thread.place, Option.map_eq_some_iff, Prod.mk.injEq]
  constructor
  · rintro ⟨rq', hrunq, rfl, rfl⟩
    exact ⟨hrunq, rfl⟩
  · rintro ⟨hrunq, rfl⟩
    exact ⟨rq, hrunq, rfl, rfl⟩

/-- The invariant of the run queues. -/
structure Inv (s : Sched T P S) : Prop where
  placed : Queues.Placed (fun k : RunqOf P S × ℕ => (s.runQueue k.1).runq k.2) fun th => (s.thread th).place
  count : ∀ rq, (s.runQueue rq).count = Buckets.total NRQS (s.runQueue rq).runq
  low : ∀ rq, ∀ i < (s.runQueue rq).low, (s.runQueue rq).runq i = []

section

variable (h : Inv s)
include h

omit [DecidableEq T] [DecidableEq P] [DecidableEq S] in
theorem Inv.mem_iff : th ∈ (s.runQueue rq).runq i ↔ (s.thread th).runq = some rq ∧ i = (s.thread th).whichq :=
  (h.placed.mem (rq, i) th).trans Thread.place_eq_some_iff

omit [DecidableEq T] [DecidableEq P] [DecidableEq S] in
theorem Inv.nodup (rq : RunqOf P S) (i : ℕ) : ((s.runQueue rq).runq i).Nodup := h.placed.nodup (rq, i)

omit [DecidableEq T] [DecidableEq P] [DecidableEq S] in
theorem Inv.congr (hthread : ∀ th, (s'.thread th).place = (s.thread th).place)
    (hqueue : s'.runQueue = s.runQueue) : Inv s' := by
  constructor
  · rw [hqueue]
    exact h.placed.congr hthread
  · rw [hqueue]
    exact h.count
  · rw [hqueue]
    exact h.low

omit [DecidableEq P] [DecidableEq S] in
theorem Inv.setThread {x : Thread P S} (hplace : x.place = (s.thread th).place) : Inv (s.setThread th x) := by
  apply h.congr
  · intro u
    by_cases hu : u = th
    · rw [hu, Sched.setThread_self, hplace]
    · rw [Sched.setThread_of_ne hu]
  · rfl

omit [DecidableEq T] [DecidableEq P] [DecidableEq S] in
/-- A thread moves between a run queue and nowhere, or within the run queue. -/
theorem Inv.move (hthread : ∀ u, u ≠ th → (s'.thread u).place = (s.thread u).place)
    (hqueue : ∀ r, r ≠ rq → s'.runQueue r = s.runQueue r)
    (hwas : (s.thread th).runq = none ∨ (s.thread th).runq = some rq)
    (his : (s'.thread th).runq = none ∨ (s'.thread th).runq = some rq)
    (hmem : ∀ i u, u ≠ th → (u ∈ (s'.runQueue rq).runq i ↔ u ∈ (s.runQueue rq).runq i))
    (hself : ∀ i, th ∈ (s'.runQueue rq).runq i ↔ (s'.thread th).place = some (rq, i))
    (hnodup : ∀ i, ((s'.runQueue rq).runq i).Nodup)
    (hcount : (s'.runQueue rq).count = Buckets.total NRQS (s'.runQueue rq).runq)
    (hlow : ∀ i < (s'.runQueue rq).low, (s'.runQueue rq).runq i = []) : Inv s' := by
  have hnot {thread : Thread P S} {r : RunqOf P S} {i : ℕ} (hr : r ≠ rq)
      (hrunq : thread.runq = none ∨ thread.runq = some rq) : thread.place ≠ some (r, i) := by
    intro hplace
    have hsome := (Thread.place_eq_some_iff.mp hplace).1
    rcases hrunq with hnone | hrq
    · rw [hnone] at hsome
      cases hsome
    · rw [hrq] at hsome
      exact hr (Option.some.inj hsome).symm
  refine ⟨⟨?_, ?_⟩, ?_, ?_⟩
  · rintro ⟨r, i⟩
    by_cases hr : r = rq
    · rw [hr]
      exact hnodup i
    · simp only [hqueue r hr]
      exact h.nodup r i
  · rintro ⟨r, i⟩ u
    have hold := h.placed.mem (r, i) u
    by_cases hu : u = th
    · rw [hu] at hold ⊢
      by_cases hr : r = rq
      · rw [hr]
        exact hself i
      · simp only [hqueue r hr]
        rw [hold]
        exact iff_of_false (hnot hr hwas) (hnot hr his)
    · rw [hthread u hu, ← hold]
      by_cases hr : r = rq
      · rw [hr]
        exact hmem i u hu
      · simp only [hqueue r hr]
  · intro r
    by_cases hr : r = rq
    · rw [hr]
      exact hcount
    · rw [hqueue r hr]
      exact h.count r
  · intro r
    by_cases hr : r = rq
    · rw [hr]
      exact hlow
    · rw [hqueue r hr]
      exact h.low r

theorem Inv.enqueue (hnone : (s.thread th).runq = none) : Inv (runQueueEnqueue s rq th) := by
  have hnot (i : ℕ) : th ∉ (s.runQueue rq).runq i := by
    rw [h.mem_iff, hnone]
    exact fun hsome => absurd hsome.1 nofun
  have hw := (s.thread th).whichq_lt
  apply @Inv.move _ _ _ s _ th rq h
  · intro u hu
    simp [runQueueEnqueue, hu]
  · intro r hr
    simp [runQueueEnqueue, hr]
  · exact .inl hnone
  · simp [runQueueEnqueue]
  · intro i u hu
    by_cases hi : i = (s.thread th).whichq
    · simp [runQueueEnqueue, hi, hu]
    · simp [runQueueEnqueue, hi]
  · intro i
    have hplace : ((runQueueEnqueue s rq th).thread th).place = some (rq, (s.thread th).whichq) := by
      simp [runQueueEnqueue, Thread.place, Thread.whichq]
    rw [hplace]
    by_cases hi : i = (s.thread th).whichq
    · simp [runQueueEnqueue, hi]
    · simp [runQueueEnqueue, hi, hnot i, Ne.symm hi]
  · intro i
    by_cases hi : i = (s.thread th).whichq
    · simp only [runQueueEnqueue, Sched.setThread_runQueue, Sched.setRunQueue_self, hi, update_self]
      exact (perm_append_singleton th _).nodup_iff.mpr (nodup_cons.mpr ⟨hnot _, h.nodup rq _⟩)
    · simp [runQueueEnqueue, hi, h.nodup rq i]
  · have htotal := Buckets.total_update (s.runQueue rq).runq hw
      ((s.runQueue rq).runq (s.thread th).whichq ++ [th])
    rw [length_append] at htotal
    simp only [runQueueEnqueue, Sched.setThread_runQueue, Sched.setRunQueue_self, h.count rq]
    have hone : [th].length = 1 := rfl
    omega
  · intro i hi
    simp only [runQueueEnqueue, Sched.setThread_runQueue, Sched.setRunQueue_self] at hi ⊢
    -- the index is below that of the thread, and nothing is queued there
    have hbelow : i ≠ (s.thread th).whichq ∧ (s.runQueue rq).runq i = [] := by
      split at hi
      · rename_i hmin
        refine ⟨hi.ne, ?_⟩
        rcases hmin with hlow | hzero
        · exact h.low rq i (hi.trans hlow)
        · rw [h.count rq, Int.natCast_eq_zero, Buckets.total_eq_zero_iff] at hzero
          exact hzero i (hi.trans hw)
      · rename_i hmin
        exact ⟨by omega, h.low rq i hi⟩
    rw [update_of_ne hbelow.1, hbelow.2]

theorem Inv.remove (hrunq : (s.thread th).runq = some rq) {q : RunQueue T}
    (hq : q.runq = update (s.runQueue rq).runq (s.thread th).whichq
      (((s.runQueue rq).runq (s.thread th).whichq).erase th))
    (hcount : q.count = (s.runQueue rq).count - 1) (hlow : ∀ i < q.low, q.runq i = []) :
    Inv ((s.setRunQueue rq q).setThread th { s.thread th with runq := none }) := by
  have hmem : th ∈ (s.runQueue rq).runq (s.thread th).whichq := h.mem_iff.mpr ⟨hrunq, rfl⟩
  apply @Inv.move _ _ _ s _ th rq h
  · intro u hu
    simp [hu]
  · intro r hr
    simp [hr]
  · exact .inr hrunq
  · simp
  · intro i u hu
    by_cases hi : i = (s.thread th).whichq
    · simp [hq, hi, mem_erase_of_ne hu]
    · simp [hq, hi]
  · intro i
    have hplace : (((s.setRunQueue rq q).setThread th { s.thread th with runq := none }).thread th).place = none := by
      simp
    rw [hplace]
    by_cases hi : i = (s.thread th).whichq
    · simp [hq, hi, (h.nodup rq _).not_mem_erase]
    · simp [hq, hi, h.mem_iff]
  · intro i
    by_cases hi : i = (s.thread th).whichq
    · simp only [Sched.setThread_runQueue, Sched.setRunQueue_self, hq, hi, update_self]
      exact (h.nodup rq _).erase th
    · simp [hq, hi, h.nodup rq i]
  · have htotal := Buckets.total_update (s.runQueue rq).runq (s.thread th).whichq_lt
      (((s.runQueue rq).runq (s.thread th).whichq).erase th)
    rw [length_erase_of_mem hmem] at htotal
    have hpos := length_pos_of_mem hmem
    simp only [Sched.setThread_runQueue, Sched.setRunQueue_self, hq, hcount, h.count rq]
    omega
  · simpa using hlow

omit [DecidableEq P] [DecidableEq S] in
theorem Inv.remqueue_eq (rq : RunqOf P S) (th : T) :
    ((s.runQueue rq).remqueue th).runq = update (s.runQueue rq).runq (s.thread th).whichq
      (((s.runQueue rq).runq (s.thread th).whichq).erase th) := by
  funext i
  by_cases hi : i = (s.thread th).whichq
  · rw [hi, update_self]
    rfl
  · rw [update_of_ne hi]
    apply erase_of_not_mem
    rw [h.mem_iff]
    exact fun hplace => hi hplace.2

omit [DecidableEq P] [DecidableEq S] in
theorem Inv.low_erase {j : ℕ} (hi : i < (s.runQueue rq).low) :
    update (s.runQueue rq).runq j (((s.runQueue rq).runq j).erase th) i = [] := by
  have hempty := h.low rq i hi
  by_cases hj : i = j
  · rw [← hj, update_self, hempty]
    rfl
  · rw [update_of_ne hj, hempty]

theorem Inv.remRunqFrom (seen : Option (RunqOf P S)) : Inv (remRunqFrom s th seen).1 := by
  unfold Runq.remRunqFrom
  cases seen with
  | none => exact h
  | some rq =>
    simp only
    split
    · rename_i hrunq
      refine h.remove (q := { (s.runQueue rq).remqueue th with count := (s.runQueue rq).count - 1 }) hrunq
        (h.remqueue_eq rq th) rfl ?_
      intro i hi
      have hempty := @Inv.low_erase _ _ _ _ s th rq i h (s.thread th).whichq hi
      rwa [← h.remqueue_eq rq th] at hempty
    · exact h

end

theorem remRunqFrom_runq {seen : Option (RunqOf P S)}
    (hseen : (s.thread th).runq = seen ∨ (s.thread th).runq = none) :
    ((remRunqFrom s th seen).1.thread th).runq = none := by
  unfold Runq.remRunqFrom
  cases seen with
  | none =>
    rcases hseen with hnone | hnone
    · exact hnone
    · exact hnone
  | some rq =>
    simp only
    split
    · simp
    · rename_i hne
      exact hseen.resolve_left hne

section Setrun

variable {env : Env T} {me : P}

/-- Usage and priority apart, a thread is as it was. -/
structure Thread.Same (x y : Thread P S) : Prop where
  policy : x.policy = y.policy
  priority : x.priority = y.priority
  depressPriority : x.depressPriority = y.depressPriority
  astTerminate : x.astTerminate = y.astTerminate
  halted : x.halted = y.halted
  boundProcessor : x.boundProcessor = y.boundProcessor
  processorSet : x.processorSet = y.processorSet
  runq : x.runq = y.runq

omit [DecidableEq T] [DecidableEq P] [DecidableEq S] in
theorem updateUsage_ok (hstamp : (s.thread th).schedStamp ≠ s.schedTick) :
    ∃ x, updateUsage env s th = .ok x ∧ x.Same (s.thread th) ∧ x.schedPri = (s.thread th).schedPri ∧
      x.schedStamp = s.schedTick := by
  have hticks : s.schedTick - (s.thread th).schedStamp ≠ 0 := by
    intro hzero
    exact hstamp (by bv_omega)
  have hstamp' : (s.thread th).schedStamp + (s.schedTick - (s.thread th).schedStamp) = s.schedTick := by bv_omega
  unfold updateUsage
  simp only [if_neg hticks]
  split
  · exact ⟨_, rfl, ⟨rfl, rfl, rfl, rfl, rfl, rfl, rfl, rfl⟩, rfl, hstamp'⟩
  · exact ⟨_, rfl, ⟨rfl, rfl, rfl, rfl, rfl, rfl, rfl, rfl⟩, rfl, hstamp'⟩

omit [DecidableEq T] [DecidableEq P] [DecidableEq S] in
theorem updatePriority_ok (hstamp : (s.thread th).schedStamp ≠ s.schedTick) :
    ∃ x, updatePriority env s th = .ok x ∧ x.Same (s.thread th) := by
  obtain ⟨x, hx, hsame, -, -⟩ := @updateUsage_ok _ _ _ s th env hstamp
  rw [updatePriority, hx]
  refine ⟨_, rfl, ?_⟩
  simp only
  split
  · unfold computeMyPriority
    split
    · exact ⟨hsame.policy, hsame.priority, hsame.depressPriority, hsame.astTerminate, hsame.halted,
        hsame.boundProcessor, hsame.processorSet, hsame.runq⟩
    · exact hsame
  · exact hsame

omit [DecidableEq P] [DecidableEq S] in
theorem Inv.setThread_idle (h : Inv s) (hnone : (s.thread th).runq = none) {x : Thread P S} (hx : x.runq = none) :
    Inv (s.setThread th x) := by
  apply h.setThread
  rw [Thread.place_eq_none_iff.mpr hx, Thread.place_eq_none_iff.mpr hnone]

omit [DecidableEq T] [DecidableEq P] in
theorem Inv.setPset (h : Inv s) (pset : S) (x : ProcessorSet P) : Inv (s.setPset pset x) :=
  h.congr (fun _ => rfl) rfl

omit [DecidableEq T] [DecidableEq S] in
theorem Inv.setProcessor (h : Inv s) (p : P) (x : Processor T S) : Inv (s.setProcessor p x) :=
  h.congr (fun _ => rfl) rfl

/-- The thread is being terminated and has stopped: `thread_setrun` refuses to set it running. -/
def Thread.Zombie (thread : Thread P S) : Prop := thread.astTerminate = true ∧ thread.halted = true

instance (thread : Thread P S) : Decidable thread.Zombie := inferInstanceAs (Decidable (_ ∧ _))

theorem Inv.place (h : Inv s) (hnone : (s.thread th).runq = none) (mayPreempt : Bool) :
    Inv (place me s th mayPreempt) := by
  unfold Runq.place
  simp only
  split
  · split
    · exact (h.setPset _ _).setProcessor _ _
    · split
      · exact ((h.enqueue hnone).setProcessor _ _).setProcessor _ _
      · exact h.enqueue hnone
  · split
    · exact (h.setPset _ _).setProcessor _ _
    · split
      · exact (h.enqueue hnone).setProcessor _ _
      · split
        · exact (h.enqueue hnone).setProcessor _ _
        · exact h.enqueue hnone

theorem threadSetrun_eq (hnone : (s.thread th).runq = none) (mayPreempt : Bool) :
    ∃ x : Thread P S, x.Same (s.thread th) ∧ threadSetrun env me s th mayPreempt =
      if (s.thread th).Zombie then .error (.panic "zombie awakened!!")
      else .ok (Runq.place me (s.setThread th x) th mayPreempt) := by
  -- the thread after the update
  have hthread : ∃ x, (if (s.thread th).schedStamp ≠ s.schedTick ∧ (s.thread th).priority ≤ (s.thread th).schedPri then
      updatePriority env s th else .ok (s.thread th)) = .ok x ∧ x.Same (s.thread th) := by
    split
    · rename_i hcond
      exact updatePriority_ok hcond.1
    · exact ⟨s.thread th, rfl, ⟨rfl, rfl, rfl, rfl, rfl, rfl, rfl, rfl⟩⟩
  obtain ⟨x, hx, hsame⟩ := hthread
  refine ⟨x, hsame, ?_⟩
  have hxnone : ¬x.runq ≠ none := not_not.mpr (hsame.runq.trans hnone)
  have hzombie : (x.astTerminate = true ∧ x.halted = true) ↔ (s.thread th).Zombie := by
    rw [hsame.astTerminate, hsame.halted]
    exact Iff.rfl
  unfold threadSetrun
  simp only
  rw [hx]
  simp only [Except.bind, if_neg hxnone, hzombie]

theorem Inv.threadSetrun (h : Inv s) (hnone : (s.thread th).runq = none) {mayPreempt : Bool}
    (hrun : threadSetrun env me s th mayPreempt = .ok s') : Inv s' := by
  obtain ⟨x, hsame, heq⟩ := @threadSetrun_eq _ _ _ _ _ _ s th env me hnone mayPreempt
  rw [heq] at hrun
  split at hrun
  · cases hrun
  · obtain rfl := Except.ok.inj hrun
    have hxnone := hsame.runq.trans hnone
    apply (h.setThread_idle hnone hxnone).place
    rw [Sched.setThread_self, hxnone]

/-- A function stops only because it has been asked to set a zombie running. -/
def StopsForZombie (s : Sched T P S) (th : T) (r : Except Stop (Sched T P S)) : Prop :=
  ∀ stop, r = .error stop → (s.thread th).Zombie ∧ stop = .panic "zombie awakened!!"

theorem threadSetrun_stops (hnone : (s.thread th).runq = none) (mayPreempt : Bool) :
    StopsForZombie s th (threadSetrun env me s th mayPreempt) := by
  intro stop hstop
  obtain ⟨x, -, heq⟩ := @threadSetrun_eq _ _ _ _ _ _ s th env me hnone mayPreempt
  rw [heq] at hstop
  split at hstop
  · rename_i hzombie
    exact ⟨hzombie, (Except.error.inj hstop).symm⟩
  · cases hstop

omit [DecidableEq S] [DecidableEq P] in
theorem setThread_pri {x : Thread P S} (pri : ℕ) (hnone : x.runq = none) :
    ((s.setThread th (if variesPri s x then { x with schedPri := pri } else x)).thread th).runq = none ∧
      ((s.setThread th (if variesPri s x then { x with schedPri := pri } else x)).thread th).astTerminate =
        x.astTerminate ∧
      ((s.setThread th (if variesPri s x then { x with schedPri := pri } else x)).thread th).halted = x.halted := by
  rw [Sched.setThread_self]
  split
  · exact ⟨hnone, rfl, rfl⟩
  · exact ⟨hnone, rfl, rfl⟩

theorem remRunq_zombie : ((remRunq s th).1.thread th).Zombie ↔ (s.thread th).Zombie := by
  unfold remRunq remRunqFrom
  cases hrunq : (s.thread th).runq with
  | none => exact Iff.rfl
  | some rq => simp [Thread.Zombie]

theorem setPri_spec (h : Inv s) (pri : ℕ) :
    (∀ s', setPri env me s th pri = .ok s' → Inv s') ∧ StopsForZombie s th (setPri env me s th pri) := by
  have hinv : Inv (remRunq s th).1 := h.remRunqFrom _
  have hnone : ((remRunq s th).1.thread th).runq = none := remRunqFrom_runq (.inl rfl)
  have hzombie := @remRunq_zombie _ _ _ _ _ _ s th
  have hcall : setPri env me s th pri =
      let s₁ := (remRunq s th).1.setThread th (if variesPri (remRunq s th).1 ((remRunq s th).1.thread th) then
        { (remRunq s th).1.thread th with schedPri := pri } else (remRunq s th).1.thread th)
      if (remRunq s th).2 ≠ none then Runq.threadSetrun env me s₁ th true else .ok s₁ := rfl
  obtain ⟨hnone', hterm, hhalted⟩ := @setThread_pri _ _ _ _ (remRunq s th).1 th _ pri hnone
  have hinv' := hinv.setThread_idle hnone ((congrArg Thread.runq (Sched.setThread_self ..)).symm.trans hnone')
  rw [hcall]
  simp only
  split
  · refine ⟨fun s' hrun => hinv'.threadSetrun hnone' hrun, ?_⟩
    intro stop hstop
    obtain ⟨hz, hmessage⟩ := threadSetrun_stops hnone' true stop hstop
    refine ⟨hzombie.mp ?_, hmessage⟩
    exact ⟨hterm ▸ hz.1, hhalted ▸ hz.2⟩
  · refine ⟨?_, nofun⟩
    intro s' hrun
    exact Except.ok.inj hrun ▸ hinv'

theorem computePriority_spec (h : Inv s) :
    (∀ s', computePriority env me s th = .ok s' → Inv s') ∧ StopsForZombie s th (computePriority env me s th) := by
  unfold computePriority
  simp only
  split
  · split
    · exact setPri_spec h _
    · refine ⟨?_, nofun⟩
      intro s' hrun
      rw [← Except.ok.inj hrun]
      exact h.setThread rfl
  · exact setPri_spec h _

end Setrun

section Choosing

/-- A thread at the head of the lowest queue that is not empty, so that no thread of the run queue is better. -/
structure Best (s : Sched T P S) (rq : RunqOf P S) (th : T) : Prop where
  head : ((s.runQueue rq).runq (s.thread th).whichq).head? = some th
  lowest : ∀ i < (s.thread th).whichq, (s.runQueue rq).runq i = []
  le : ∀ u, (s.thread u).runq = some rq → (s.thread th).whichq ≤ (s.thread u).whichq

omit [DecidableEq T] [DecidableEq P] [DecidableEq S] in
theorem Inv.firstFrom (h : Inv s) (hcount : 0 < (s.runQueue rq).count) :
    ∃ i th rest, Buckets.firstFrom (s.runQueue rq).runq (s.runQueue rq).low (NRQS - (s.runQueue rq).low) = some i ∧
      (s.runQueue rq).runq i = th :: rest ∧ i = (s.thread th).whichq ∧ (s.thread th).runq = some rq ∧ Best s rq th := by
  cases hfirst : Buckets.firstFrom (s.runQueue rq).runq (s.runQueue rq).low (NRQS - (s.runQueue rq).low) with
  | none =>
    have hempty := Buckets.firstFrom_none hfirst
    have hzero : Buckets.total NRQS (s.runQueue rq).runq = 0 := by
      apply Buckets.total_eq_zero_iff.mpr
      intro i hi
      by_cases hlow : i < (s.runQueue rq).low
      · exact h.low rq i hlow
      · exact hempty i (by omega) (by omega)
    rw [h.count rq, hzero] at hcount
    exact absurd hcount (lt_irrefl 0)
  | some i =>
    obtain ⟨-, -, hne, hbetween⟩ := Buckets.firstFrom_some hfirst
    obtain ⟨th, rest, hqueue⟩ := exists_cons_of_ne_nil hne
    have hmem : th ∈ (s.runQueue rq).runq i := by
      rw [hqueue]
      exact mem_cons_self ..
    obtain ⟨hrunq, hi⟩ := h.mem_iff.mp hmem
    have hlowest : ∀ j < i, (s.runQueue rq).runq j = [] := by
      intro j hj
      by_cases hlow : j < (s.runQueue rq).low
      · exact h.low rq j hlow
      · exact hbetween j (by omega) hj
    refine ⟨i, th, rest, rfl, hqueue, hi, hrunq, ?_, ?_, ?_⟩
    · rw [← hi, hqueue]
      rfl
    · rwa [← hi]
    · intro u hu
      by_contra hlt
      have humem : u ∈ (s.runQueue rq).runq (s.thread u).whichq := h.mem_iff.mpr ⟨hu, rfl⟩
      rw [hlowest _ (by omega)] at humem
      cases humem

theorem Inv.dequeue (h : Inv s) {rest : List T} (hrunq : (s.thread th).runq = some rq)
    (hqueue : (s.runQueue rq).runq (s.thread th).whichq = th :: rest)
{low : ℕ} (hlow : ∀ j < low, update (s.runQueue rq).runq (s.thread th).whichq rest j = []) :
    Inv (setLow (dequeue s rq (s.thread th).whichq th) rq low) := by
  have hinv := h.remove (q := ⟨update (s.runQueue rq).runq (s.thread th).whichq rest, low,
    (s.runQueue rq).count - 1⟩) hrunq (by rw [hqueue, erase_cons_head]) rfl hlow
  apply hinv.congr
  · intro u
    rfl
  · funext r
    by_cases hr : r = rq
    · simp [setLow, Runq.dequeue, hr, hqueue]
    · simp [setLow, Runq.dequeue, hr]

omit [DecidableEq T] [DecidableEq P] [DecidableEq S] in
theorem Best.empty_below (h : Best s rq th) {i : ℕ} (hi : i < (s.thread th).whichq) (rest : List T) :
    update (s.runQueue rq).runq (s.thread th).whichq rest i = [] := by
  rw [update_of_ne hi.ne]
  exact h.lowest i hi

/-- What a run queue holds, in the order in which it is chosen. -/
def queued (s : Sched T P S) (rq : RunqOf P S) : List T := Buckets.contents NRQS (s.runQueue rq).runq

/-- The first thread of a run queue has been taken, and nothing else has changed in the queues. -/
structure Taken (s s' : Sched T P S) (rq : RunqOf P S) (th : T) : Prop where
  queued : queued s rq = th :: queued s' rq
  others : ∀ r, r ≠ rq → Runq.queued s' r = Runq.queued s r
  processor : s'.processor = s.processor

theorem Best.taken (h : Best s rq th) {rest : List T} (hqueue : (s.runQueue rq).runq (s.thread th).whichq = th :: rest)
    (low : ℕ) : Taken s (setLow (dequeue s rq (s.thread th).whichq th) rq low) rq th := by
  refine ⟨?_, fun r hr => ?_, rfl⟩
  · simp [queued, setLow, Runq.dequeue, hqueue, Buckets.contents_eq_cons (s.thread th).whichq_lt h.lowest hqueue]
  · simp [queued, setLow, Runq.dequeue, hr]

theorem chooseLocal_spec (h : Inv s) {p : P} (hcount : 0 < (s.runQueue (.processor p)).count) :
    ∃ th s', chooseLocal s p = .ok (th, s') ∧ Inv s' ∧ Best s (.processor p) th ∧ Taken s s' (.processor p) th := by
  obtain ⟨i, th, rest, hfirst, hqueue, rfl, hrunq, hbest⟩ := h.firstFrom hcount
  refine ⟨th, _, ?_, h.dequeue hrunq hqueue fun j hj => hbest.empty_below hj rest, hbest, hbest.taken hqueue _⟩
  unfold chooseLocal
  simp only [hfirst, hqueue]

theorem chooseGlobal_spec (h : Inv s) {pset : S} (hcount : 0 < (s.runQueue (.pset pset)).count) :
    ∃ th s', chooseGlobal s pset = .ok (th, s') ∧ Inv s' ∧ Best s (.pset pset) th ∧ Taken s s' (.pset pset) th := by
  obtain ⟨i, th, rest, hfirst, hqueue, rfl, hrunq, hbest⟩ := h.firstFrom hcount
  have hafter : ((Runq.dequeue s (.pset pset) (s.thread th).whichq th).runQueue (.pset pset)).runq =
      update (s.runQueue (.pset pset)).runq (s.thread th).whichq rest := by
    simp [Runq.dequeue, hqueue]
  -- whether `low` is looked for again or not
  have hnext : ∀ j < nextQueue (update (s.runQueue (.pset pset)).runq (s.thread th).whichq rest)
      (s.thread th).whichq, update (s.runQueue (.pset pset)).runq (s.thread th).whichq rest j = [] := by
    intro j hj
    by_cases hbelow : j < (s.thread th).whichq
    · exact hbest.empty_below hbelow rest
    · unfold nextQueue at hj
      cases hfrom : Buckets.firstFrom (update (s.runQueue (.pset pset)).runq (s.thread th).whichq rest)
          (s.thread th).whichq (NRQS - (s.thread th).whichq) with
      | none =>
        rw [hfrom, Option.getD_none] at hj
        exact Buckets.firstFrom_none hfrom j (by omega) (by omega)
      | some k =>
        rw [hfrom, Option.getD_some] at hj
        exact (Buckets.firstFrom_some hfrom).2.2.2 j (by omega) hj
  have hlow : ∀ j < (s.runQueue (.pset pset)).low,
      update (s.runQueue (.pset pset)).runq (s.thread th).whichq rest j = [] := by
    intro j hj
    have hle := (Buckets.firstFrom_some hfirst).1
    exact hbest.empty_below (by omega) rest
  have hcall : chooseGlobal s pset =
      if 0 < ((Runq.dequeue s (.pset pset) (s.thread th).whichq th).runQueue (.pset pset)).count then
        .ok (th, setLow (Runq.dequeue s (.pset pset) (s.thread th).whichq th) (.pset pset)
          (if (s.pset pset).policies &&& POLICY_FIXEDPRI ≠ 0 then
            nextQueue (update (s.runQueue (.pset pset)).runq (s.thread th).whichq rest) (s.thread th).whichq
          else (s.thread th).whichq))
      else .ok (th, Runq.dequeue s (.pset pset) (s.thread th).whichq th) := by
    unfold chooseGlobal
    simp only [hfirst, hqueue, hafter]
    rfl
  rw [hcall]
  split
  · refine ⟨th, _, rfl, h.dequeue hrunq hqueue ?_, hbest, hbest.taken hqueue _⟩
    split
    · exact hnext
    · exact fun j hj => hbest.empty_below hj rest
  · have hsame : setLow (Runq.dequeue s (.pset pset) (s.thread th).whichq th) (.pset pset) (s.runQueue (.pset pset)).low =
        Runq.dequeue s (.pset pset) (s.thread th).whichq th := by
      simp [setLow, Runq.dequeue, Sched.setRunQueue, Sched.setThread]
    exact ⟨th, _, rfl, hsame ▸ h.dequeue hrunq hqueue hlow, hbest, hsame ▸ hbest.taken hqueue _⟩

/-- What `choose_thread` returns: a best thread of the queue of the processor, or of the processor set if that one is
empty, or the idle thread. -/
structure Chosen (s : Sched T P S) (p : P) (th : T) : Prop where
  ofLocal : 0 < (s.runQueue (.processor p)).count → Best s (.processor p) th
  ofGlobal : (s.runQueue (.processor p)).count = 0 →
    0 < (s.runQueue (.pset (s.processor p).processorSet)).count → Best s (.pset (s.processor p).processorSet) th
  idle : (s.runQueue (.processor p)).count = 0 → (s.runQueue (.pset (s.processor p).processorSet)).count = 0 →
    th = (s.processor p).idleThread

theorem chooseThread_spec (h : Inv s) (p : P) :
    ∃ th s', chooseThread s p = .ok (th, s') ∧ Inv s' ∧ Chosen s p th := by
  unfold chooseThread
  simp only
  have hnonneg (rq : RunqOf P S) : 0 ≤ (s.runQueue rq).count := by
    rw [h.count rq]
    exact Int.natCast_nonneg _
  split
  · rename_i hlocal
    obtain ⟨th, s', heq, hinv, hbest, -⟩ := chooseLocal_spec h hlocal
    exact ⟨th, s', heq, hinv, fun _ => hbest, fun hzero => by omega, fun hzero => by omega⟩
  · rename_i hlocal
    split
    · rename_i hglobal
      obtain ⟨th, s', heq, hinv, hbest, -⟩ := chooseGlobal_spec h hglobal
      exact ⟨th, s', heq, hinv, fun hpos => absurd hpos hlocal, fun _ _ => hbest, fun _ hz => by omega⟩
    · rename_i hglobal
      have hidle : Chosen s p (s.processor p).idleThread :=
        ⟨fun hpos => absurd hpos hlocal, fun _ hpos => absurd hpos hglobal, fun _ _ => rfl⟩
      split
      · exact ⟨_, _, rfl, (h.setProcessor _ _).setPset _ _, hidle⟩
      · exact ⟨_, _, rfl, h, hidle⟩

end Choosing

end Osf1.Runq
