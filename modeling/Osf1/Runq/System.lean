import Osf1.Computation.Transition
import Osf1.Runq.Invariant

/-!
# The periodic update of the priorities

`update_runq_pri` goes through the queues of a run queue and moves threads between them while it does so.  A
thread is moved once at most, as it is then up to date; every thread that was in a queue when the queue was
reached is counted once at least, so that the walk ends inside the array.
-/

set_option autoImplicit false

namespace Osf1.Runq

open List Function

section Update

open Osf1.Computation

variable {T P S : Type} [DecidableEq T] [DecidableEq P] [DecidableEq S] {s s' : Sched T P S} {th : T}
  {rq : RunqOf P S} {i : ℕ} {env : Env T} {tryLock : T → Bool} {x : Thread P S} {q : RunQueue T} {fuel : ℕ}

/-- A thread of the run queue has been looked at: it is where it was, or it has been moved and is up to date. -/
structure Looked (s s' : Sched T P S) (rq : RunqOf P S) (th : T) : Prop where
  inv : Inv s'
  tick : s'.schedTick = s.schedTick
  others : ∀ u, u ≠ th → s'.thread u = s.thread u
  count : (s'.runQueue rq).count = (s.runQueue rq).count
  queues : (∀ k, (s'.runQueue rq).runq k = (s.runQueue rq).runq k) ∨
    ((s.thread th).schedStamp ≠ s.schedTick ∧ (s'.thread th).schedStamp = s.schedTick ∧
      ∃ j, (s'.runQueue rq).runq =
        Function.update ((s.runQueue rq).remqueue th).runq j (((s.runQueue rq).remqueue th).runq j ++ [th]))

omit [DecidableEq P] [DecidableEq S] in
theorem Looked.refl (h : Inv s) : Looked s s rq th := ⟨h, rfl, fun _ _ => rfl, rfl, .inl fun _ => rfl⟩

omit [DecidableEq P] [DecidableEq S] in
theorem Looked.setThread (h : Inv s) (hplace : x.place = (s.thread th).place) : Looked s (s.setThread th x) rq th :=
  ⟨h.setThread hplace, rfl, fun _ hu => Sched.setThread_of_ne hu x, rfl, .inl fun _ => rfl⟩

theorem Inv.requeue (h : Inv s) (hrunq : (s.thread th).runq = some rq) (hx : x.runq = some rq)
    (hq : q.runq = Function.update ((s.runQueue rq).remqueue th).runq x.whichq
      (((s.runQueue rq).remqueue th).runq x.whichq ++ [th]))
    (hcount : q.count = (s.runQueue rq).count) (hlow : ∀ i < q.low, i < (s.runQueue rq).low ∧ i ≠ x.whichq) :
    Inv ((s.setRunQueue rq q).setThread th x) := by
  have hnot (k : ℕ) : th ∉ ((s.runQueue rq).remqueue th).runq k := (h.nodup rq k).not_mem_erase
  have hmem (k : ℕ) (u : T) (hu : u ≠ th) : u ∈ ((s.runQueue rq).remqueue th).runq k ↔ u ∈ (s.runQueue rq).runq k :=
    mem_erase_of_ne hu
  have hplace : x.place = some (rq, x.whichq) := Thread.place_eq_some_iff.mpr ⟨hx, rfl⟩
  apply @Inv.move _ _ _ s _ th rq h
  · intro u hu
    simp [hu]
  · intro r hr
    simp [hr]
  · exact .inr hrunq
  · simp [hx]
  · intro k u hu
    by_cases hk : k = x.whichq
    · simp [hq, hk, hmem _ u hu, hu]
    · simp [hq, hk, hmem _ u hu]
  · intro k
    rw [Sched.setThread_self, hplace]
    by_cases hk : k = x.whichq
    · simp [hq, hk]
    · simp [hq, hk, hnot k, Ne.symm hk]
  · intro k
    by_cases hk : k = x.whichq
    · simp only [Sched.setThread_runQueue, Sched.setRunQueue_self, hq, hk, update_self]
      exact (perm_append_singleton th _).nodup_iff.mpr
        (nodup_cons.mpr ⟨hnot _, (h.nodup rq _).erase th⟩)
    · simp only [Sched.setThread_runQueue, Sched.setRunQueue_self, hq, update_of_ne hk]
      exact (h.nodup rq _).erase th
  · have hold : th ∈ (s.runQueue rq).runq (s.thread th).whichq := h.mem_iff.mpr ⟨hrunq, rfl⟩
    have hpos := length_pos_of_mem hold
    have hout := Buckets.total_update (s.runQueue rq).runq (s.thread th).whichq_lt
      (((s.runQueue rq).runq (s.thread th).whichq).erase th)
    have hin := Buckets.total_update ((s.runQueue rq).remqueue th).runq x.whichq_lt
      (((s.runQueue rq).remqueue th).runq x.whichq ++ [th])
    rw [← h.remqueue_eq rq th, length_erase_of_mem hold] at hout
    rw [length_append, length_singleton] at hin
    simp only [Sched.setThread_runQueue, Sched.setRunQueue_self, hq, hcount, h.count rq]
    omega
  · intro k hk
    simp only [Sched.setThread_runQueue, Sched.setRunQueue_self] at hk ⊢
    obtain ⟨hbelow, hne⟩ := hlow k hk
    rw [hq, update_of_ne hne, h.remqueue_eq rq th]
    exact h.low_erase hbelow

omit [DecidableEq T] [DecidableEq P] [DecidableEq S] in
theorem doPriorityComputation_lt (env : Env T) (th : T) (x : Thread P S) : doPriorityComputation env th x < NRQS := by
  have hle : doPriorityComputation env th x ≤ NRQS - 1 := Nat.min_le_right ..
  have hpos : 0 < NRQS := by decide
  omega

theorem Looked.moved (h : Inv s) (hrunq : (s.thread th).runq = some rq) (hstamp : (s.thread th).schedStamp ≠ s.schedTick)
    (hx : x.runq = some rq) (hxstamp : x.schedStamp = s.schedTick) {newPri : ℕ} (hlt : newPri < NRQS)
    (hq : q.runq = Function.update ((s.runQueue rq).remqueue th).runq newPri
      (((s.runQueue rq).remqueue th).runq newPri ++ [th])) (hcount : q.count = (s.runQueue rq).count)
    (hlow : q.low = if newPri < (s.runQueue rq).low ∨ (s.runQueue rq).count = 0 then newPri else (s.runQueue rq).low) :
    Looked s ((s.setRunQueue rq q).setThread th { x with schedPri := newPri }) rq th := by
  have hwhichq : ({ x with schedPri := newPri } : Thread P S).whichq = newPri := if_neg (not_le.mpr hlt)
  have hcounted : (s.runQueue rq).count ≠ 0 := by
    have hmem : th ∈ (s.runQueue rq).runq (s.thread th).whichq := h.mem_iff.mpr ⟨hrunq, rfl⟩
    rw [h.count rq]
    intro hzero
    have hempty := Buckets.total_eq_zero_iff.mp (Int.natCast_eq_zero.mp hzero) _ (s.thread th).whichq_lt
    rw [hempty] at hmem
    cases hmem
  constructor
  · refine h.requeue (x := { x with schedPri := newPri }) hrunq hx ?_ ?_ ?_
    · rw [hwhichq]
      exact hq
    · exact hcount
    · intro k hk
      rw [hlow] at hk
      split at hk
      · rename_i hmin
        have := hmin.resolve_right hcounted
        omega
      · omega
  · rfl
  · intro u hu
    simp [hu]
  · simp [hcount]
  · refine .inr ⟨hstamp, ?_, newPri, ?_⟩
    · rw [Sched.setThread_self]
      exact hxstamp
    · simp [hq]

theorem updateThread_ok (h : Inv s) (hrunq : (s.thread th).runq = some rq) :
    ∃ s', updateThread env s rq th = .ok s' ∧ Looked s s' rq th := by
  unfold updateThread
  simp only
  split
  · rename_i hcond
    obtain ⟨x, hx, hsame, hpri, hstamp⟩ := @updateUsage_ok _ _ _ s th env (Ne.symm hcond.2)
    rw [hx]
    refine ⟨_, rfl, ?_⟩
    have hplace : x.place = (s.thread th).place := by
      rw [Thread.place, Thread.place, Thread.whichq, Thread.whichq, hsame.runq, hpri]
    simp only [Sched.setThread_setRunQueue, Sched.setThread_setThread, Sched.setThread_runQueue]
    split
    · split
      · exact Looked.moved h hrunq (Ne.symm hcond.2) (hsame.runq.trans hrunq) hstamp
          (doPriorityComputation_lt env th x) rfl rfl rfl
      · exact Looked.setThread h hplace
    · exact Looked.setThread h hplace
  · exact ⟨s, rfl, Looked.refl h⟩

omit [DecidableEq P] [DecidableEq S] in
theorem nextIn_eq {pre post : List T} (hnot : th ∉ pre) : nextIn (pre ++ th :: post) th = post.head? := by
  unfold nextIn
  induction pre with
  | nil => simp
  | cons u pre ih =>
    have hne : u ≠ th := fun heq => hnot (heq ▸ mem_cons_self ..)
    rw [cons_append, dropWhile_cons_of_pos (by simpa using hne)]
    exact ih fun hmem => hnot (mem_cons_of_mem _ hmem)

/-- How many threads of a list have not been updated at this tick. -/
def stale (s : Sched T P S) (l : List T) : ℕ := l.countP fun u => (s.thread u).schedStamp ≠ s.schedTick

omit [DecidableEq P] [DecidableEq S] in
theorem Looked.stale_eq (h : Looked s s' rq th) {l : List T} (hnot : th ∉ l) : stale s' l = stale s l := by
  apply countP_congr
  intro u hu
  have hne : u ≠ th := fun heq => hnot (heq ▸ hu)
  simp only [h.others u hne, h.tick]

omit [DecidableEq P] [DecidableEq S] in
theorem Looked.length_le (hlooked : Looked s s' rq th) {k : ℕ} (hk : th ∉ (s.runQueue rq).runq k) :
    ((s.runQueue rq).runq k).length ≤ ((s'.runQueue rq).runq k).length := by
  rcases hlooked.queues with hsame | ⟨-, -, j, hmoved⟩
  · rw [hsame]
  · have herase : ((s.runQueue rq).remqueue th).runq k = (s.runQueue rq).runq k := erase_of_not_mem hk
    rw [hmoved]
    by_cases hj : k = j
    · rw [← hj, update_self, herase, length_append]
      exact Nat.le_add_right ..
    · rw [update_of_ne hj, herase]

theorem updateQueue_ok (fuel : ℕ) (h : Inv s) {pre todo : List T} (hqueue : (s.runQueue rq).runq i = pre ++ todo)
    (hfuel : todo.length + stale s todo ≤ fuel) (count : ℤ) :
    ∃ s' count', updateQueue env tryLock rq i fuel s todo.head? count = .ok (s', count') ∧ Inv s' ∧
      count' + todo.length ≤ count ∧ (s'.runQueue rq).count = (s.runQueue rq).count ∧
      ∀ k, i < k → ((s.runQueue rq).runq k).length ≤ ((s'.runQueue rq).runq k).length := by
  induction fuel generalizing s pre todo count with
  | zero =>
    obtain rfl : todo = [] := length_eq_zero_iff.mp (by omega)
    exact ⟨s, count, rfl, h, by simp, rfl, fun _ _ => le_rfl⟩
  | succ fuel ih =>
    cases todo with
    | nil => exact ⟨s, count, rfl, h, by simp, rfl, fun _ _ => le_rfl⟩
    | cons th post =>
      have hnodup := h.nodup rq i
      rw [hqueue] at hnodup
      obtain ⟨-, hnodup', hdisj⟩ := nodup_append.mp hnodup
      have hpost : th ∉ post := (nodup_cons.mp hnodup').1
      have hpre : th ∉ pre := fun hmem => hdisj th hmem th (mem_cons_self ..) rfl
      have hmem : th ∈ (s.runQueue rq).runq i := by simp [hqueue]
      obtain ⟨hrunq, hi⟩ := h.mem_iff.mp hmem
      -- the thread is looked at, or its lock is not free
      have hlook : ∃ s₁, (if tryLock th = true then updateThread env s rq th else .ok s) = .ok s₁ ∧ Looked s s₁ rq th := by
        split
        · exact updateThread_ok h hrunq
        · exact ⟨s, rfl, Looked.refl h⟩
      obtain ⟨s₁, hs₁, hlooked⟩ := hlook
      have hstep : updateQueue env tryLock rq i (fuel + 1) s (some th) count =
          updateQueue env tryLock rq i fuel s₁ post.head? (count - 1) := by
        have hnext : nextIn (pre ++ th :: post) th = post.head? := nextIn_eq hpre
        rw [updateQueue, hqueue, hnext, hs₁]
        rfl
      have hstale : stale s (th :: post) = stale s post + if (s.thread th).schedStamp ≠ s.schedTick then 1 else 0 := by
        simp [stale, countP_cons]
      rw [length_cons, hstale] at hfuel
      have hbehind : ∀ k, i < k → ((s.runQueue rq).runq k).length ≤ ((s₁.runQueue rq).runq k).length := by
        intro k hk
        apply hlooked.length_le
        rw [h.mem_iff]
        exact fun hplace => by omega
      -- the rest of the queue when the walk goes on
      have hrest : ∃ pre' todo', (s₁.runQueue rq).runq i = pre' ++ todo' ∧ post.head? = todo'.head? ∧
          post.length ≤ todo'.length ∧ todo'.length + stale s₁ todo' ≤ fuel := by
        have hsame := hlooked.stale_eq hpost
        rcases hlooked.queues with hqueues | ⟨hold, hnew, j, hmoved⟩
        · exact ⟨pre ++ [th], post, by rw [hqueues, hqueue, append_cons], rfl, le_rfl, by omega⟩
        · have herase : ((s.runQueue rq).remqueue th).runq i = pre ++ post := by
            have hcons : (pre ++ th :: post).erase th = pre ++ post := by
              rw [erase_append_right _ hpre, erase_cons_head]
            exact (congrArg (fun l => l.erase th) hqueue).trans hcons
          by_cases hj : i = j
          · have htail : (s₁.runQueue rq).runq i = pre ++ post ++ [th] := by
              rw [hmoved, ← hj, update_self, herase]
            cases post with
            | nil => exact ⟨pre ++ [th], [], by rw [htail, append_nil, append_nil], rfl, le_rfl,
                Nat.zero_le _⟩
            | cons u post =>
              refine ⟨pre, u :: post ++ [th], by rw [htail, append_assoc], rfl,
                (sublist_append_left _ _).length_le, ?_⟩
              have hcount : stale s₁ (u :: post ++ [th]) = stale s₁ (u :: post) := by
                have hone : stale s₁ [th] = 0 := by simp [stale, hnew, hlooked.tick]
                unfold stale at hone ⊢
                rw [countP_append, hone, Nat.add_zero]
              rw [if_pos hold] at hfuel
              rw [length_append, length_singleton, hcount, hsame]
              omega
          · exact ⟨pre, post, by rw [hmoved, update_of_ne hj, herase], rfl, le_rfl, by omega⟩
      obtain ⟨pre', todo', hqueue', hhead, hlength, hfuel'⟩ := hrest
      obtain ⟨s', count', hrun, hinv, hcount, hcounted, hlengths⟩ := ih hlooked.inv hqueue' hfuel' (count - 1)
      refine ⟨s', count', ?_, hinv, ?_, hcounted.trans hlooked.count, ?_⟩
      · rw [head?_cons, hstep, hhead, hrun]
      · rw [length_cons]
        omega
      · exact fun k hk => (hbehind k hk).trans (hlengths k hk)

theorem updateQueues_ok (rest : ℕ) (h : Inv s) (hrest : NRQS ≤ i + rest) (hfuel : 2 * (s.runQueue rq).count ≤ fuel) {count : ℤ}
    (hcount : count ≤ Buckets.totalFrom i NRQS (s.runQueue rq).runq) :
    ∃ s', updateQueues env tryLock rq fuel rest i s count = .ok s' ∧ Inv s' := by
  induction rest generalizing i s count with
  | zero =>
    rw [Buckets.totalFrom_eq_zero (by omega)] at hcount
    exact ⟨s, by rw [updateQueues, if_neg (by omega)], h⟩
  | succ rest ih =>
    unfold updateQueues
    split
    · rename_i hpos
      have hi : i < NRQS := by
        by_contra hle
        rw [Buckets.totalFrom_eq_zero (not_lt.mp hle)] at hcount
        omega
      have hlength := @Buckets.length_le_total _ (s.runQueue rq).runq _ _ hi
      have hstale : stale s ((s.runQueue rq).runq i) ≤ ((s.runQueue rq).runq i).length := countP_le_length
      rw [h.count rq] at hfuel
      obtain ⟨s₁, count₁, hrun, hinv, hle, hcounted, hlengths⟩ :=
        @updateQueue_ok _ _ _ _ _ _ s rq i env tryLock fuel h [] _ (nil_append _).symm (by omega) count
      simp only [hrun, Except.bind]
      rw [Buckets.totalFrom_eq_add hi] at hcount
      have hmono : Buckets.totalFrom (i + 1) NRQS (s.runQueue rq).runq ≤
          Buckets.totalFrom (i + 1) NRQS (s₁.runQueue rq).runq :=
        Buckets.totalFrom_mono fun k hk => hlengths k (by omega)
      apply ih hinv (by omega)
      · rw [hcounted, h.count rq]
        exact hfuel
      · omega
    · exact ⟨s, rfl, h⟩

theorem updateRunqPri_ok (h : Inv s) (rq : RunqOf P S) (hfuel : 2 * (s.runQueue rq).count ≤ fuel) :
    ∃ s', updateRunqPri env tryLock fuel s rq = .ok s' ∧ Inv s' := by
  apply updateQueues_ok _ h (by omega) hfuel
  rw [h.count rq, Buckets.total_eq_totalFrom (h.low rq)]

end Update

/-!
## The run queues over whole runs

The steps are calls of the run queue functions on any processor; between them the rest of the kernel may change
everything but the run queues, the `runq` of a thread and the scheduled priority of a thread that is queued.
-/

section System

open Osf1.Computation

variable {T P S : Type} [DecidableEq T] [DecidableEq P] [DecidableEq S] {s s' : Sched T P S}

/-- A call on a processor.  In `rem` the caller has read the `runq` of the thread before. -/
inductive Call (T P S : Type) where
  | setrun (env : Env T) (me : P) (th : T) (mayPreempt : Bool)
  | rem (th : T) (seen : Option (RunqOf P S))
  | choose (me : P)
  | setPri (env : Env T) (me : P) (th : T) (pri : ℕ)
  | compute (env : Env T) (me : P) (th : T)
  | update (env : Env T) (tryLock : T → Bool) (fuel : ℕ) (rq : RunqOf P S)
  | other (s' : Sched T P S)

/-- The rest of the kernel leaves the run queues alone. -/
structure Leaves (s s' : Sched T P S) : Prop where
  runQueue : s'.runQueue = s.runQueue
  runq : ∀ th, (s'.thread th).runq = (s.thread th).runq
  schedPri : ∀ th, (s.thread th).runq ≠ none → (s'.thread th).schedPri = (s.thread th).schedPri

/-- A call returns.  A thread is set running when it is on no run queue, and what has been read of a thread is right
unless the thread has left. -/
inductive Step : Sched T P S → Call T P S → Sched T P S → Prop where
  | setrun {s₁ s₂ : Sched T P S} {env : Env T} {me : P} {th : T} {mayPreempt : Bool} : (s₁.thread th).runq = none →
      threadSetrun env me s₁ th mayPreempt = .ok s₂ → Step s₁ (.setrun env me th mayPreempt) s₂
  | rem {s₁ : Sched T P S} {th : T} {seen : Option (RunqOf P S)} :
      (s₁.thread th).runq = seen ∨ (s₁.thread th).runq = none → Step s₁ (.rem th seen) (remRunqFrom s₁ th seen).1
  | choose {s₁ s₂ : Sched T P S} {me : P} {th : T} : chooseThread s₁ me = .ok (th, s₂) → Step s₁ (.choose me) s₂
  | setPri {s₁ s₂ : Sched T P S} {env : Env T} {me : P} {th : T} {pri : ℕ} :
      Runq.setPri env me s₁ th pri = .ok s₂ → Step s₁ (.setPri env me th pri) s₂
  | compute {s₁ s₂ : Sched T P S} {env : Env T} {me : P} {th : T} :
      computePriority env me s₁ th = .ok s₂ → Step s₁ (.compute env me th) s₂
  | update {s₁ s₂ : Sched T P S} {env : Env T} {tryLock : T → Bool} {fuel : ℕ} {rq : RunqOf P S} :
      2 * (s₁.runQueue rq).count ≤ fuel → updateRunqPri env tryLock fuel s₁ rq = .ok s₂ →
      Step s₁ (.update env tryLock fuel rq) s₂
  | other {s₁ s₂ : Sched T P S} : Leaves s₁ s₂ → Step s₁ (.other s₂) s₂

/-- The runs from a state in which no thread is queued. -/
def system (T P S : Type) [DecidableEq T] [DecidableEq P] [DecidableEq S] : System (Sched T P S) (Call T P S) where
  init s := (∀ th, (s.thread th).runq = none) ∧ ∀ rq, (s.runQueue rq).count = 0 ∧ ∀ i, (s.runQueue rq).runq i = []
  step := Step

theorem Inv.step (h : Inv s) {c : Call T P S} (hstep : Step s c s') : Inv s' := by
  cases hstep with
  | setrun hnone hrun => exact h.threadSetrun hnone hrun
  | rem hseen => exact h.remRunqFrom _
  | choose hrun =>
    obtain ⟨th, s₁, heq, hinv, -⟩ := chooseThread_spec h _
    obtain ⟨-, rfl⟩ := Prod.mk.inj (Except.ok.inj (heq.symm.trans hrun))
    exact hinv
  | setPri hrun => exact (setPri_spec h _).1 _ hrun
  | compute hrun => exact (computePriority_spec h).1 _ hrun
  | update hfuel hrun =>
    obtain ⟨s₁, heq, hinv⟩ := updateRunqPri_ok h _ hfuel
    obtain rfl := Except.ok.inj (heq.symm.trans hrun)
    exact hinv
  | other hleaves =>
    apply h.congr
    · intro th
      by_cases hnone : (s.thread th).runq = none
      · rw [Thread.place_eq_none_iff.mpr hnone, Thread.place_eq_none_iff.mpr ((hleaves.runq th).trans hnone)]
      · rw [Thread.place, Thread.place, Thread.whichq, Thread.whichq, hleaves.runq th, hleaves.schedPri th hnone]
    · exact hleaves.runQueue

theorem inv_of_reachable (h : (system T P S).Reachable s) : Inv s := by
  apply h.invariant
  · rintro s ⟨hnone, hempty⟩
    refine ⟨⟨?_, ?_⟩, ?_, ?_⟩
    · rintro ⟨rq, i⟩
      simp only [(hempty rq).2 i]
      exact nodup_nil
    · rintro ⟨rq, i⟩ th
      simp only [(hempty rq).2 i, Thread.place_eq_none_iff.mpr (hnone th)]
      exact iff_of_false not_mem_nil nofun
    · intro rq
      rw [(hempty rq).1]
      exact (Int.natCast_eq_zero.mpr (Buckets.total_eq_zero_iff.mpr fun i _ => (hempty rq).2 i)).symm
    · exact fun rq i _ => (hempty rq).2 i
  · exact fun s i t _ hinv hstep => hinv.step hstep

/-- The run queues are as the threads say. -/
structure Consistent (s : Sched T P S) : Prop where
  queued : ∀ th rq, (s.thread th).runq = some rq → th ∈ (s.runQueue rq).runq (min (s.thread th).schedPri (NRQS - 1))
  only : ∀ th rq i, th ∈ (s.runQueue rq).runq i →
    (s.thread th).runq = some rq ∧ i = min (s.thread th).schedPri (NRQS - 1)
  once : ∀ rq i, ((s.runQueue rq).runq i).Nodup
  count : ∀ rq, (s.runQueue rq).count = ∑ i ∈ Finset.range NRQS, ((s.runQueue rq).runq i).length
  low : ∀ rq, ∀ i < (s.runQueue rq).low, (s.runQueue rq).runq i = []

/-- No call panics, but for a zombie, and a choice is a best one. -/
structure Works (s : Sched T P S) : Prop where
  setrun : ∀ env me th mayPreempt, (s.thread th).runq = none →
    StopsForZombie s th (threadSetrun env me s th mayPreempt)
  setPri : ∀ env me th pri, StopsForZombie s th (Runq.setPri env me s th pri)
  compute : ∀ env me th, StopsForZombie s th (computePriority env me s th)
  choose : ∀ me, ∃ th s', chooseThread s me = .ok (th, s') ∧ Chosen s me th
  update : ∀ env tryLock rq (fuel : ℕ), 2 * (s.runQueue rq).count ≤ fuel →
    ∃ s', updateRunqPri env tryLock fuel s rq = .ok s'

omit [DecidableEq T] [DecidableEq P] [DecidableEq S] in
theorem Inv.consistent (h : Inv s) : Consistent s := by
  constructor
  · intro th rq hrunq
    rw [← Thread.whichq_eq_min, h.mem_iff]
    exact ⟨hrunq, rfl⟩
  · intro th rq i hmem
    rw [← Thread.whichq_eq_min]
    exact h.mem_iff.mp hmem
  · exact h.nodup
  · intro rq
    rw [h.count rq, Buckets.total]
  · exact h.low

theorem Inv.works (h : Inv s) : Works s where
  setrun _ _ _ mayPreempt hnone := threadSetrun_stops hnone mayPreempt
  setPri _ _ _ pri := (setPri_spec h pri).2
  compute _ _ _ := (computePriority_spec h).2
  choose me := by
    obtain ⟨th, s', heq, -, hchosen⟩ := chooseThread_spec h me
    exact ⟨th, s', heq, hchosen⟩
  update _ _ rq _ hfuel := by
    obtain ⟨s', heq, -⟩ := updateRunqPri_ok h rq hfuel
    exact ⟨s', heq⟩

/-- In every reachable state the run queues are consistent, and every call works. -/
theorem run_queues_consistent (h : (system T P S).Reachable s) : Consistent s ∧ Works s :=
  ⟨(inv_of_reachable h).consistent, (inv_of_reachable h).works⟩

/-- A thread that is idle on the processor 0, of the processor set 0. -/
def idleThread : Thread ℕ ℕ where
  policy := POLICY_TIMESHARE
  priority := 12
  schedPri := 12
  depressPriority := -1
  cpuUsage := 0
  schedUsage := 0
  schedStamp := 0
  cpuDelta := 0
  schedDelta := 0
  kernelVmSpace := false
  astTerminate := false
  halted := false
  boundProcessor := none
  processorSet := 0
  runq := none

/-- One busy processor, and threads that are all on no run queue; thread 1 is a zombie. -/
def oneProcessor : Sched ℕ ℕ ℕ where
  thread th := if th = 1 then { idleThread with astTerminate := true, halted := true } else idleThread
  runQueue _ := ⟨fun _ => [], 0, 0⟩
  processor _ := ⟨.running, 0, none, 0, 0, true, false⟩
  pset _ := ⟨[], POLICY_TIMESHARE, 0⟩
  schedTick := 0
  masterProcessor := 0
  kernelThreadFixedPriDisable := false

theorem oneProcessor_reachable : (system ℕ ℕ ℕ).Reachable oneProcessor := by
  apply System.Reachable.init
  refine ⟨?_, fun _ => ⟨rfl, fun _ => rfl⟩⟩
  intro th
  simp only [oneProcessor]
  split
  · rfl
  · rfl

/-- Thread 2 has been set running. -/
theorem run_queues_consistent_setrun :
    Consistent (place 0 (oneProcessor.setThread 2 idleThread) 2 false) ∧
      Works (place 0 (oneProcessor.setThread 2 idleThread) 2 false) := by
  apply run_queues_consistent
  apply oneProcessor_reachable.step
  exact @Step.setrun _ _ _ _ _ _ oneProcessor _ ⟨fun _ => 0, fun _ => 0⟩ 0 2 false rfl rfl

/-- A zombie that is set running makes `thread_setrun` panic. -/
theorem setrun_zombie_panics : ¬∀ (s : Sched ℕ ℕ ℕ) (env : Env ℕ) (me th : ℕ) (mayPreempt : Bool),
    (system ℕ ℕ ℕ).Reachable s → (s.thread th).runq = none →
      ∃ s', threadSetrun env me s th mayPreempt = .ok s' := by
  intro hall
  obtain ⟨s', hs'⟩ := hall oneProcessor ⟨fun _ => 0, fun _ => 0⟩ 0 1 false oneProcessor_reachable rfl
  cases hs'

/-- What a processor is to choose: what its own run queue holds, and then what that of its processor set holds. -/
def waiting (s : Sched T P S) (me : P) : List T :=
  queued s (.processor me) ++ queued s (.pset (s.processor me).processorSet)

/-- What a processor chooses in several turns. -/
def chooseThreads (me : P) : ℕ → Sched T P S → Except Stop (List T × Sched T P S)
  | 0, s => .ok ([], s)
  | n + 1, s => (chooseThread s me).bind fun (th, s) => (chooseThreads me n s).map fun (ths, s) => (th :: ths, s)

theorem chooseThread_waiting (h : Inv s) (me : P) : ∃ th s', chooseThread s me = .ok (th, s') ∧ Inv s' ∧
    (s'.processor me).idleThread = (s.processor me).idleThread ∧ (waiting s me = th :: waiting s' me ∨
      waiting s me = [] ∧ waiting s' me = [] ∧ th = (s.processor me).idleThread) := by
  have hnil (rq : RunqOf P S) (hzero : ¬0 < (s.runQueue rq).count) : queued s rq = [] := by
    have htotal := h.count rq
    exact Buckets.contents_eq_nil (Buckets.total_eq_zero_iff.mp (by omega))
  unfold chooseThread
  simp only
  split
  · rename_i hlocal
    obtain ⟨th, s', heq, hinv, -, htaken⟩ := chooseLocal_spec h hlocal
    refine ⟨th, s', heq, hinv, by rw [htaken.processor], .inl ?_⟩
    simp [waiting, htaken.queued, htaken.others, htaken.processor]
  · rename_i hlocal
    split
    · rename_i hglobal
      obtain ⟨th, s', heq, hinv, -, htaken⟩ := chooseGlobal_spec h hglobal
      refine ⟨th, s', heq, hinv, by rw [htaken.processor], .inl ?_⟩
      simp [waiting, hnil _ hlocal, htaken.queued, htaken.others, htaken.processor]
    · rename_i hglobal
      have hempty : waiting s me = [] := by simp [waiting, hnil _ hlocal, hnil _ hglobal]
      split
      · refine ⟨_, _, rfl, (h.setProcessor _ _).setPset _ _, ?_, .inr ⟨hempty, ?_, rfl⟩⟩
        · simp [Sched.setPset, Sched.setProcessor]
        · simpa [waiting, queued, Sched.setPset, Sched.setProcessor] using hempty
      · exact ⟨_, _, rfl, h, rfl, .inr ⟨hempty, hempty, rfl⟩⟩

theorem chooseThreads_waiting (h : Inv s) (me : P) (n : ℕ) : ∃ s', chooseThreads me n s =
    .ok ((waiting s me).take n ++ replicate (n - (waiting s me).length) (s.processor me).idleThread, s') := by
  induction n generalizing s with
  | zero => exact ⟨s, by simp [chooseThreads]⟩
  | succ n ih =>
    obtain ⟨th, s₁, heq, hinv, hidle, hfirst⟩ := chooseThread_waiting h me
    obtain ⟨s', hs'⟩ := ih hinv
    refine ⟨s', ?_⟩
    rw [chooseThreads, heq]
    rcases hfirst with hcons | ⟨hempty, hempty', rfl⟩
    · simp [Except.bind, Except.map, hs', hcons, hidle]
    · simp [Except.bind, Except.map, hs', hempty, hempty', hidle, replicate_succ]

/-- A processor chooses the threads that wait for it in the order of their priorities, those of a priority as they
came, and then its idle thread. -/
theorem chosen_in_order (h : (system T P S).Reachable s) (me : P) (n : ℕ) : ∃ s', chooseThreads me n s =
    .ok ((waiting s me).take n ++ replicate (n - (waiting s me).length) (s.processor me).idleThread, s') :=
  chooseThreads_waiting (inv_of_reachable h) me n

theorem chosen_in_order_setrun :
    ∃ s', chooseThreads 0 2 (place 0 (oneProcessor.setThread 2 idleThread) 2 false) = .ok ([2, 0], s') :=
  chosen_in_order (oneProcessor_reachable.step
    (@Step.setrun _ _ _ _ _ _ oneProcessor _ ⟨fun _ => 0, fun _ => 0⟩ 0 2 false rfl rfl)) 0 2

end System

end Osf1.Runq
