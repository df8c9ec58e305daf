import Osf1.Computation.Tally
import Osf1.Mwc.Model

/-!
# What each step does, and the writes that are outstanding

A write that has been charged to an entry waits on the queue of a volume, or is in a loop of
`lv_mwc_cache_done`, or has been scheduled.
-/

set_option autoImplicit false

namespace Osf1.Mwc

open List Function

section Steps

open Osf1.Computation

/-- The track groups of the writes that wait on the queues of the volumes. -/
@[irreducible] def waitKeys (pv : Pvnum → Pv) : Multiset (ℕ × ℕ) :=
  ∑ v, ((pv v).wait.map Buf.key : Multiset (ℕ × ℕ))

/-- The track groups of the writes that are outstanding. -/
def Volgrp.outstanding (s : Volgrp) : Multiset (ℕ × ℕ) :=
  waitKeys s.pv + ((s.drains.flatMap Prod.snd).map Buf.key : Multiset (ℕ × ℕ)) +
    (s.sched.map Buf.key : Multiset (ℕ × ℕ))

variable {s s' t : Volgrp} {lb : Buf} {h : Slot} {v : Pvnum} {b : Bool}

section Outstanding

theorem waitKeys_congr {pv pv' : Pvnum → Pv} (h : ∀ v, (pv' v).wait = (pv v).wait) :
    waitKeys pv' = waitKeys pv := by
  unfold waitKeys
  exact Finset.sum_congr rfl fun v _ => by rw [h v]

theorem waitKeys_update (pv : Pvnum → Pv) (v : Pvnum) (p : Pv) :
    waitKeys (Function.update pv v p) + ((pv v).wait.map Buf.key : Multiset (ℕ × ℕ)) =
      waitKeys pv + (p.wait.map Buf.key : Multiset (ℕ × ℕ)) := by
  unfold waitKeys
  exact sum_update Finset.univ (fun p : Pv => (p.wait.map Buf.key : Multiset (ℕ × ℕ))) pv
    (Finset.mem_univ v) p

theorem outstanding_congr (hwait : ∀ v, (s'.pv v).wait = (s.pv v).wait)
    (hdrains : s'.drains.flatMap Prod.snd = s.drains.flatMap Prod.snd)
    (hsched : s'.sched = s.sched) : s'.outstanding = s.outstanding := by
  unfold Volgrp.outstanding
  rw [hdrains, hsched, waitKeys_congr hwait]

theorem outstanding_setPv (p : Pv) :
    (s.setPv v p).outstanding + ((s.pv v).wait.map Buf.key : Multiset (ℕ × ℕ)) =
      s.outstanding + (p.wait.map Buf.key : Multiset (ℕ × ℕ)) := by
  have hsum := waitKeys_update s.pv v p
  unfold Volgrp.outstanding
  rw [add_right_comm _ _ ((s.pv v).wait.map Buf.key : Multiset (ℕ × ℕ)),
    add_right_comm _ _ ((s.pv v).wait.map Buf.key : Multiset (ℕ × ℕ)),
    show (s.setPv v p).pv = update s.pv v p from rfl, hsum,
    add_right_comm _ _ (p.wait.map Buf.key : Multiset (ℕ × ℕ)),
    add_right_comm _ _ (p.wait.map Buf.key : Multiset (ℕ × ℕ))]
  rfl

variable {p : Pv} {i : ℕ} {b : Bool} {rest : List Buf}

theorem outstanding_append (hp : p.wait = (s.pv v).wait ++ [lb]) :
    (s.setPv v p).outstanding = lb.key ::ₘ s.outstanding := by
  have hset := outstanding_setPv (s := s) (v := v) p
  have hcoe : (p.wait.map Buf.key : Multiset (ℕ × ℕ)) =
      lb.key ::ₘ ((s.pv v).wait.map Buf.key : Multiset (ℕ × ℕ)) := by
    rw [hp, map_append]
    exact Multiset.coe_eq_coe.mpr (perm_append_singleton _ _)
  rw [hcoe, Multiset.add_cons, ← Multiset.cons_add] at hset
  exact add_right_cancel hset

theorem outstanding_schedule (hwait : ∀ v, (s'.pv v).wait = (s.pv v).wait)
    (hdrains : s'.drains = s.drains) (hsched : s'.sched = s.sched ++ [lb]) :
    s'.outstanding = lb.key ::ₘ s.outstanding := by
  have hcoe : ((s.sched ++ [lb]).map Buf.key : Multiset (ℕ × ℕ)) =
      lb.key ::ₘ (s.sched.map Buf.key : Multiset (ℕ × ℕ)) := by
    rw [map_append]
    exact Multiset.coe_eq_coe.mpr (perm_append_singleton _ _)
  unfold Volgrp.outstanding
  rw [hdrains, hsched, hcoe, Multiset.add_cons, waitKeys_congr hwait]

theorem outstanding_erase (hwait : ∀ v, (s'.pv v).wait = (s.pv v).wait)
    (hdrains : s'.drains = s.drains) (hmem : lb ∈ s.sched) (hsched : s'.sched = s.sched.erase lb) :
    s.outstanding = lb.key ::ₘ s'.outstanding := by
  have hcoe : (s.sched.map Buf.key : Multiset (ℕ × ℕ)) =
      lb.key ::ₘ ((s.sched.erase lb).map Buf.key : Multiset (ℕ × ℕ)) :=
    Multiset.coe_eq_coe.mpr ((perm_cons_erase hmem).map Buf.key)
  unfold Volgrp.outstanding
  rw [hdrains, hsched, hcoe, Multiset.add_cons, waitKeys_congr hwait]

theorem flatMap_modify_tail {drains : List (Bool × List Buf)} (hi : drains[i]? = some (b, lb :: rest)) :
    (drains.flatMap Prod.snd).Perm
      (lb :: (drains.modify i fun d => (d.1, d.2.tail)).flatMap Prod.snd) := by
  induction drains generalizing i with
  | nil => cases hi
  | cons d drains ih =>
    cases i with
    | zero =>
      cases hi
      exact List.Perm.refl _
    | succ i =>
      exact ((ih hi).append_left _).trans perm_middle

theorem outstanding_advance (hi : s.drains[i]? = some (b, lb :: rest)) :
    s.outstanding = lb.key ::ₘ (s.advance i).outstanding := by
  have hcoe : ((s.drains.flatMap Prod.snd).map Buf.key : Multiset (ℕ × ℕ)) =
      lb.key ::ₘ (((s.advance i).drains.flatMap Prod.snd).map Buf.key : Multiset (ℕ × ℕ)) :=
    Multiset.coe_eq_coe.mpr ((flatMap_modify_tail hi).map Buf.key)
  unfold Volgrp.outstanding
  rw [hcoe, Multiset.add_cons, Multiset.cons_add]
  rfl

theorem outstanding_enqueue : (s.enqueue v lb).outstanding = lb.key ::ₘ s.outstanding := outstanding_append rfl

theorem outstanding_take (hp : p.wait = []) (hpv : s'.pv = Function.update s.pv v p)
    (hdrains : s'.drains = s.drains ++ [(b, (s.pv v).wait)]) (hsched : s'.sched = s.sched) :
    s'.outstanding = s.outstanding := by
  have hsum := waitKeys_update s.pv v p
  rw [hp, map_nil, Multiset.coe_nil, add_zero] at hsum
  unfold Volgrp.outstanding
  rw [hpv, hdrains, hsched, ← hsum, flatMap_append, map_append, ← Multiset.coe_add]
  rw [flatMap_cons, flatMap_nil, append_nil, ← add_assoc]
  rw [add_right_comm (waitKeys (update s.pv v p))]

end Outstanding

theorem pickPv_congr (hpv : s'.pv = s.pv) (hcopy : ∀ i, s'.copy lb i = s.copy lb i) (n : ℕ)
    (pv : Option Pvnum) : pickPv s' lb n pv = pickPv s lb n pv := by
  induction n generalizing pv with
  | zero => rfl
  | succ n ih =>
    unfold pickPv
    rw [hcopy, hpv]
    simp only [ih]

theorem target_congr (hpv : s'.pv = s.pv) (hmax : s'.maxmirrors = s.maxmirrors)
    (hcopy : ∀ i, s'.copy lb i = s.copy lb i) : s'.target lb = s.target lb := by
  unfold Volgrp.target
  rw [pickPv_congr hpv hcopy, hmax, hpv]

theorem target_setCache (c : Cache) : { s with cache := c }.target lb = s.target lb :=
  target_congr rfl rfl fun _ => rfl

/-- The search does not hit: there is no entry, or an idle one that is frozen. -/
def Missed (c : Cache) (k : ℕ × ℕ) : Prop :=
  ∀ h, c.find k = some h → (c.entry h).iocnt = 0 ∧ (c.entry h).frozen = true

/-- What `lv_checkcache` does with a request. -/
inductive Checked (s : Volgrp) (lb : Buf) : Bool → Volgrp → Prop
  | waits : Checked s lb false { s with waiting := s.waiting ++ [lb] }
  | hitWaits {h : Slot} {v : Pvnum} : s.cache.find lb.key = some h →
      ((s.cache.entry h).iocnt ≠ 0 ∨ (s.cache.entry h).frozen = false) →
      (s.cache.entry h).changing = true → (s.cache.entry h).frozen = false →
      (s.cache.entry h).pvol = some v →
      Checked s lb false
        { s.setPv v { s.pv v with wait := (s.pv v).wait ++ [lb] } with cache := s.cache.charge h }
  | hitScheduled {h : Slot} : s.cache.find lb.key = some h →
      ((s.cache.entry h).iocnt ≠ 0 ∨ (s.cache.entry h).frozen = false) →
      ((s.cache.entry h).changing = true → (s.cache.entry h).frozen = true) →
      Checked s lb false { s with cache := s.cache.charge h, sched := s.sched ++ [lb] }
  | fails {h : Slot} {c : Cache} : Missed s.cache lb.key → s.inflight = none →
      lv_cache_new s.cache = .ok (some (h, c)) → s.target lb = none →
      Checked s lb true { s with cache := c }
  | fills {h : Slot} {c : Cache} {v : Pvnum} : Missed s.cache lb.key → s.inflight = none →
      lv_cache_new s.cache = .ok (some (h, c)) → s.target lb = some v →
      Checked s lb false
        { s.enqueue v lb with cache := c.fill h v lb.key, changed := true }

theorem checked_miss (hmissed : Missed s.cache lb.key) (hm : miss s lb = .ok (b, t)) : Checked s lb b t := by
  unfold miss at hm
  split at hm
  · cases hm
    exact .waits
  rename_i hinflight
  have hinflight : s.inflight = none := by simpa using hinflight
  split at hm
  · cases hm
  · cases hm
    exact .waits
  rename_i h c hnew
  unfold lv_cache_queue at hm
  split at hm
  · cases hm
  · rename_i hq
    split at hq
    · cases hq
    · have hnone := Option.map_eq_none_iff.mp (Except.ok.inj hq)
      rw [target_setCache] at hnone
      cases hm
      exact .fails hmissed hinflight hnew hnone
  · rename_i v u hq
    split at hq
    · cases hq
    · obtain ⟨v', hv, hu⟩ := Option.map_eq_some_iff.mp (Except.ok.inj hq)
      rw [target_setCache] at hv
      cases hu
      cases hm
      exact .fills hmissed hinflight hnew hv

theorem checked (hs : Sound s.cache s.outstanding) (hc : lv_checkcache s lb = .ok (b, t)) : Checked s lb b t := by
  unfold lv_checkcache at hc
  rw [hs.search] at hc
  cases hf : s.cache.find lb.key with
  | none =>
    rw [hf] at hc
    refine checked_miss (fun h hh => ?_) hc
    cases hf.symm.trans hh
  | some h =>
    rw [hf] at hc
    simp only at hc
    split at hc
    · rename_i hok
      unfold hit at hc
      simp only at hc
      split at hc
      · rename_i hch
        split at hc
        · cases hc
        · rename_i v hv
          cases hc
          exact .hitWaits hf hok hch.1 hch.2 hv
      · rename_i hch
        cases hc
        refine .hitScheduled hf hok fun h1 => ?_
        simpa using fun h2 => hch ⟨h1, h2⟩
    · rename_i hno
      refine checked_miss (fun h' hh => ?_) hc
      cases hf.symm.trans hh
      simpa [not_or] using hno

section Cases

theorem map_eq_ok {α β : Type} {x : Except Stop α} {f : α → β} {b : β} (hx : x.map f = .ok b) :
    ∃ a, x = .ok a ∧ f a = b := by
  cases x with
  | error e => cases hx
  | ok a => exact ⟨a, rfl, Except.ok.inj hx⟩

theorem lv_cache_start_cases (s : Volgrp) :
    lv_cache_start s = s ∨ ∃ v rest, s.inflight = none ∧ s.cacheWrite = v :: rest ∧
      lv_cache_start s =
        { s.stampRecord.setPv v { s.pv v with queued := false, toggle := !(s.pv v).toggle } with
          inflight := some v
          landed := false
          cacheWrite := rest } := by
  have hpv : s.stampRecord.pv = s.pv := by
    unfold Volgrp.stampRecord
    split <;> rfl
  unfold lv_cache_start
  split
  · rename_i v rest hi hw
    simp only [hpv]
    exact .inr ⟨v, rest, hi, hw, rfl⟩
  · exact .inl rfl

theorem overwrite_cases {r : Option Rec} (ho : s.overwrite r = .ok t) :
    ∃ v, s.inflight = some v ∧
      t = { s with
        disk := update s.disk v (update (s.disk v) (s.pv v).toggle r)
        landed := r.isSome } := by
  unfold Volgrp.overwrite at ho
  split at ho
  · cases ho
  · rename_i v hv
    cases ho
    exact ⟨v, hv, rfl⟩

variable {c' : Cache} {minor : ℕ} {b : Bool} {f : Option Buf}

theorem scrubEntry_cases {c : Cache} (hscrub : scrubEntry c minor h = .ok (b, c')) :
    c' = c ∨ (c.entry h).minor = minor ∧ (c.entry h).frozen = false ∧ (c.entry h).iocnt = 0 ∧
      ∃ d, lv_cache_remove c (MWC_THASH (c.entry h).ltg) h = .ok d ∧ c' = d.useLru h := by
  unfold scrubEntry at hscrub
  simp only at hscrub
  split at hscrub
  · rename_i hm
    split at hscrub
    · cases hscrub
    rename_i hidle
    obtain ⟨d, hrem, hd⟩ := map_eq_ok hscrub
    cases hd
    exact .inr ⟨hm.1, hm.2, not_not.mp hidle, d, hrem, rfl⟩
  · cases hscrub
    exact .inl rfl

theorem scrubFrom_keeps {P : Cache → Prop} {lststart : Slot}
    (hstep : ∀ c c' h b, P c → scrubEntry c minor h = .ok (b, c') → P c') (n : ℕ) {h : Slot} {chg : Bool} {c : Cache} (hc : P c)
    (hscrub : scrubFrom minor lststart n h chg c = .ok (b, c')) : P c' := by
  induction n generalizing h chg c with
  | zero =>
    cases hscrub
    exact hc
  | succ n ih =>
    unfold scrubFrom at hscrub
    split at hscrub
    · cases hscrub
    rename_i removed c₁ hentry
    have hc₁ := hstep c c₁ h removed hc hentry
    split at hscrub
    · cases hscrub
      exact hc₁
    · exact ih hc₁ hscrub

theorem lv_cache_update_cases (s : Volgrp) :
    ∃ pv cacheWrite,
      lv_cache_update s =
        { s with
          pv := pv, cacheWrite := cacheWrite, bstamp := s.clock + 1, clock := s.clock + 1
          changed := true } ∧
      ∀ v, pv v = { s.pv v with queued := (pv v).queued } := by
  have hfold (l : List Pvnum) (s : Volgrp) : ∃ pv cacheWrite,
      l.foldl updatePv s = { s with pv := pv, cacheWrite := cacheWrite } ∧
      ∀ v, pv v = { s.pv v with queued := (pv v).queued } := by
    induction l generalizing s with
    | nil => exact ⟨s.pv, s.cacheWrite, rfl, fun v => rfl⟩
    | cons v l ih =>
      obtain ⟨pv, cacheWrite, heq, hpv⟩ := ih (updatePv s v)
      rw [foldl_cons, heq]
      unfold updatePv at hpv ⊢
      split
      · rename_i hcond
        rw [if_pos hcond] at hpv
        exact ⟨pv, cacheWrite, rfl, hpv⟩
      · rename_i hcond
        rw [if_neg hcond] at hpv
        refine ⟨pv, cacheWrite, rfl, fun u => (hpv u).trans ?_⟩
        change ({ update s.pv v { s.pv v with queued := true } u with
          queued := (pv u).queued } : Pv) = _
        by_cases hu : u = v
        · rw [hu, update_self]
        · rw [update_of_ne hu]
  obtain ⟨pv, cacheWrite, heq, hpv⟩ := hfold (finRange 255) s
  refine ⟨pv, cacheWrite, ?_, hpv⟩
  unfold lv_cache_update
  rw [heq]

theorem lv_cache_scrub_cases (hscrub : lv_cache_scrub s minor = .ok (b, t)) :
    ∃ c, scrubFrom minor s.cache.lst LVM_NUMMWC (s.cache.prev s.cache.lst) false s.cache = .ok (b, c) ∧
      t = if b then lv_cache_update { s with cache := c } else { s with cache := c } := by
  unfold lv_cache_scrub at hscrub
  split at hscrub
  · cases hscrub
  · rename_i hwalk
    cases hscrub
    exact ⟨_, hwalk, rfl⟩

theorem cacheDone_cases {error : Bool} (hd : cacheDone s error = .ok t) :
    ∃ v u, s.inflight = some v ∧ (error = false → s.landed = true) ∧ s.changed = false ∧
      t = u.takeWaiters v error ∧
      (u = { s with inflight := none } ∨
        s.clean = true ∧ ∃ b, lv_cache_scrub { s with inflight := none } s.cleanMinor = .ok (b, u)) := by
  unfold cacheDone at hd
  split at hd
  · cases hd
  rename_i v hv
  split at hd
  · cases hd
  rename_i hland
  simp only at hd
  split at hd
  · cases hd
  rename_i hchg
  have hland : error = false → s.landed = true := by
    intro he
    simpa [he] using hland
  have hchg : s.changed = false := by simpa using hchg
  split at hd
  · rename_i hclean
    obtain ⟨r, hr, rfl⟩ : ∃ r, lv_cache_scrub { s with inflight := none } s.cleanMinor = .ok r ∧
        r.2.takeWaiters v error = t := by
      revert hd
      cases lv_cache_scrub { s with inflight := none } s.cleanMinor with
      | error e => intro hd; cases hd
      | ok r =>
        intro hd
        exact ⟨r, rfl, Except.ok.inj hd⟩
    exact ⟨v, r.2, hv, hland, hchg, rfl, .inr ⟨hclean, r.1, hr⟩⟩
  · cases hd
    exact ⟨v, _, hv, hland, hchg, rfl, .inl rfl⟩

/-- What one round of the loop of `lv_mwc_cache_done` does with a request. -/
inductive Drained (s : Volgrp) (i : ℕ) (lb : Buf) (h : Slot) : Bool → Bool → Volgrp → Prop
  | scheduled : Drained s i lb h false false
      { s.advance i with
        cache := s.cache.setEntry h { s.cache.entry h with changing := false }
        sched := s.sched ++ [lb] }
  | requeued {v : Pvnum} : s.target lb = some v → Drained s i lb h true false
      { (s.advance i).enqueue v lb with
        cache := s.cache.setEntry h { s.cache.entry h with pvol := some v } }
  | discharged {e : Entry} : s.target lb = none →
      e = { s.cache.entry h with iocnt := decIocnt (s.cache.entry h).iocnt } → e.iocnt ≠ 0 →
      Drained s i lb h true true { s.advance i with cache := s.cache.setEntry h e }
  | removed {e : Entry} {c : Cache} : s.target lb = none →
      e = { s.cache.entry h with iocnt := decIocnt (s.cache.entry h).iocnt } → e.iocnt = 0 →
      lv_cache_remove { s.cache.setEntry h e with free := incFree s.cache.free }
        (MWC_THASH lb.key.2) h = .ok c →
      Drained s i lb h true true { s.advance i with cache := c.useLru h }

section

variable (hs : Sound s.cache s.outstanding)
include hs

theorem drain_cases {i : ℕ} (hd : drain s i = .ok (b, t)) :
    ∃ error lb rest h, s.drains[i]? = some (error, lb :: rest) ∧
      s.cache.find lb.key = some h ∧ Drained s i lb h error b t := by
  unfold drain at hd
  split at hd
  · rename_i error lb rest hi
    simp only at hd
    rw [show (s.advance i).cache = s.cache from rfl, hs.search] at hd
    cases hf : s.cache.find lb.key with
    | none =>
      rw [hf] at hd
      cases hd
    | some h =>
      rw [hf] at hd
      refine ⟨error, lb, rest, h, hi, hf, ?_⟩
      simp only at hd
      split at hd
      · rename_i herr
        subst herr
        cases hd
        exact .scheduled
      · rename_i herr
        have herr : error = true := by simpa using herr
        subst herr
        unfold lv_cache_queue at hd
        have htarget : (s.advance i).target lb = s.target lb := target_congr rfl rfl fun _ => rfl
        by_cases hmax : (s.advance i).maxmirrors lb.minor = 0
        · rw [if_pos hmax] at hd
          cases hd
        rw [if_neg hmax, htarget] at hd
        cases hv : s.target lb with
        | some v =>
          rw [hv] at hd
          cases hd
          exact .requeued hv
        | none =>
          rw [hv] at hd
          unfold failWaiter at hd
          simp only [Option.map_none] at hd
          rw [if_neg (by omega)] at hd
          split at hd
          · rename_i hzero
            obtain ⟨r, hr, hd⟩ := map_eq_ok hd
            obtain ⟨c, hrem, hc⟩ := map_eq_ok hr
            cases hd
            cases hc
            exact .removed hv rfl hzero hrem
          · rename_i hpos
            cases hd
            exact .discharged hv rfl hpos
  · cases hd

theorem complete_cases {vgsaFailed : Bool} (hc : complete s lb vgsaFailed = .ok t) :
    lb ∈ s.sched ∧ ∃ h e, s.cache.find lb.key = some h ∧
      e = { s.cache.entry h with
        iocnt := decIocnt (s.cache.entry h).iocnt
        frozen := (s.cache.entry h).frozen || vgsaFailed } ∧
      t = { s with
        sched := s.sched.erase lb
        cache := { s.cache.setEntry h e with
          free := if e.iocnt = 0 ∧ e.frozen = false then incFree s.cache.free
            else s.cache.free } } := by
  unfold complete at hc
  split at hc
  · rename_i hmem
    rw [hs.search] at hc
    cases hf : s.cache.find lb.key with
    | none =>
      rw [hf] at hc
      cases hc
    | some h =>
      rw [hf] at hc
      simp only at hc
      cases hc
      exact ⟨hmem, h, _, rfl, rfl, rfl⟩
  · cases hc

theorem submit_cases (hstep : stepFails s (.submit lb) = .ok (f, t)) :
    lb.minor ≠ 0 ∧ ∃ b, f = (if b then some lb else none) ∧ Checked s lb b t := by
  unfold stepFails at hstep
  simp only at hstep
  split at hstep
  · cases hstep
  rename_i hm
  obtain ⟨⟨b, u⟩, hr, hf⟩ := map_eq_ok hstep
  cases hf
  exact ⟨fun h => hm (.inl h), b, rfl, checked hs hr⟩

theorem retry_cases (hstep : stepFails s .retry = .ok (f, t)) :
    ∃ lb rest b, s.retrying = lb :: rest ∧ f = (if b then some lb else none) ∧
      Checked { s with retrying := rest } lb b t := by
  unfold stepFails at hstep
  simp only at hstep
  split at hstep
  · cases hstep
  rename_i lb rest hr
  obtain ⟨⟨b, u⟩, hc, hf⟩ := map_eq_ok hstep
  cases hf
  exact ⟨lb, rest, b, hr, rfl, checked (s := { s with retrying := rest }) hs hc⟩

end

theorem take_cases (hstep : stepFails s .take = .ok (f, t)) :
    f = none ∧ t = { s with retrying := s.waiting, waiting := [] } := by
  unfold stepFails at hstep
  simp only at hstep
  split at hstep
  · cases hstep
    exact ⟨rfl, rfl⟩
  · cases hstep

theorem clean_cases (hstep : stepFails s (.clean minor) = .ok (f, t)) :
    minor ≠ 0 ∧ f = none ∧ (t = { s with clean := true, cleanMinor := minor } ∨
      s.inflight = none ∧ ∃ b u, lv_cache_scrub s minor = .ok (b, u) ∧
        t = if b then lv_cache_start u else u) := by
  unfold stepFails at hstep
  simp only at hstep
  split at hstep
  · cases hstep
  rename_i hm
  obtain ⟨u, hc, hf⟩ := map_eq_ok hstep
  cases hf
  refine ⟨hm, rfl, ?_⟩
  unfold lv_cache_clean at hc
  split at hc
  · cases hc
    exact .inl rfl
  · rename_i hi
    obtain ⟨⟨b, w⟩, hscrub, rfl⟩ := map_eq_ok hc
    exact .inr ⟨by simpa using hi, b, w, hscrub, rfl⟩

end Cases

end Steps

/-!
## The counts of the entries

In every state the entries count the writes that are outstanding, as long as no count reaches the
end of its range.
-/

section Counts

open Osf1.Computation

/-- The entries count the writes that are outstanding. -/
structure Charged (s : Volgrp) : Prop where
  sound : Sound s.cache s.outstanding
  waiting : ∀ lb ∈ s.waiting, lb.minor ≠ 0
  retrying : ∀ lb ∈ s.retrying, lb.minor ≠ 0

variable {s t : Volgrp} {lb : Buf} {h : Slot} {v : Pvnum} {M : Multiset (ℕ × ℕ)} {c : Cache}
  {k : ℕ × ℕ} {b error : Bool} {minor i : ℕ}

theorem incIocnt_eq {n : ℕ} (hn : n + 1 < 2 ^ 16) : incIocnt n = n + 1 := Nat.mod_eq_of_lt hn

theorem decIocnt_succ (n : ℕ) : decIocnt (n + 1) = n := if_neg (Nat.succ_ne_zero n)

/-- A count has not reached the end of its range. -/
def Roomy (s : Volgrp) (lb : Buf) : Prop := ∀ h, s.cache.find lb.key = some h → (s.cache.entry h).iocnt + 1 < 2 ^ 16

theorem Sound.charge {M : Multiset (ℕ × ℕ)} {c : Cache} {k : ℕ × ℕ} (hs : Sound c M)
    (hf : c.find k = some h) (hroom : (c.entry h).iocnt + 1 < 2 ^ 16) : Sound (c.charge h) (k ::ₘ M) := by
  have hset : Sound (c.setEntry h { c.entry h with iocnt := incIocnt (c.entry h).iocnt })
      (k ::ₘ M) := by
    refine hs.setIocnt hf rfl ?_ (fun k' hk => Multiset.count_cons_of_ne hk ..) ?_
    · rw [Multiset.count_cons_self, hs.count_of_find hf, incIocnt_eq hroom]
    · simp only [incIocnt_eq hroom]
      exact hroom
  refine hset.congr ?_ fun h' => ?_
  · unfold Cache.charge
    simp [Cache.setEntry]
  · unfold Cache.charge
    simp [Cache.setEntry]

theorem Sound.uncharge {M : Multiset (ℕ × ℕ)} {c : Cache} {k : ℕ × ℕ} (hs : Sound c (k ::ₘ M))
    (hf : c.find k = some h) :
    (c.entry h).iocnt = M.count k + 1 ∧ decIocnt (c.entry h).iocnt = M.count k ∧
      ∀ e : Entry, e.key = (c.entry h).key → e.iocnt = M.count k → Sound (c.setEntry h e) M := by
  have hcount := hs.count_of_find hf
  rw [Multiset.count_cons_self] at hcount
  have hsmall := hs.small h
  have hdec : decIocnt (c.entry h).iocnt = M.count k := by
    rw [← hcount, decIocnt_succ]
  refine ⟨hcount.symm, hdec, fun e hkey hcnt => hs.setIocnt hf hkey hcnt.symm (fun k' hk => ?_) ?_⟩
  · rw [Multiset.count_cons_of_ne hk]
  · rw [hcnt]
    omega

theorem Sound.cacheFill {M : Multiset (ℕ × ℕ)} {c : Cache} {k : ℕ × ℕ} (hs : Sound c M)
    (hun : c.Unhashed h) (hk : M.count k = 0) (hminor : k.1 ≠ 0) : Sound (c.fill h v k) (k ::ₘ M) :=
  hs.fill hun hk hminor rfl rfl (useMru_entry ..) (useMru_hash ..)

theorem Sound.count_of_missed {M : Multiset (ℕ × ℕ)} {c : Cache} {k : ℕ × ℕ} (hs : Sound c M)
    (hm : Missed c k) : M.count k = 0 := by
  cases hf : c.find k with
  | none => exact hs.count_of_none hf
  | some h => exact (hs.count_of_find hf).trans (hm h hf).1

theorem Charged.checked (hs : Charged s) (hc : Checked s lb b t) (hminor : lb.minor ≠ 0) (hroom : Roomy s lb) : Charged t := by
  cases hc with
  | waits =>
    refine ⟨hs.sound, fun x hx => ?_, hs.retrying⟩
    rcases mem_append.mp hx with hx | hx
    · exact hs.waiting x hx
    · rw [mem_singleton.mp hx]
      exact hminor
  | @hitWaits h v hf _ _ _ _ =>
    refine ⟨?_, hs.waiting, hs.retrying⟩
    have hout : (s.setPv v { s.pv v with wait := (s.pv v).wait ++ [lb] }).outstanding =
        lb.key ::ₘ s.outstanding := outstanding_append rfl
    show Sound _ (s.setPv v { s.pv v with wait := (s.pv v).wait ++ [lb] }).outstanding
    rw [hout]
    exact hs.sound.charge hf (hroom _ hf)
  | @hitScheduled h hf _ _ =>
    refine ⟨?_, hs.waiting, hs.retrying⟩
    have hout : ({ s with cache := s.cache.charge h, sched := s.sched ++ [lb] } : Volgrp).outstanding
        = lb.key ::ₘ s.outstanding := outstanding_schedule (fun _ => rfl) rfl rfl
    rw [hout]
    exact hs.sound.charge hf (hroom _ hf)
  | fails _ _ hnew _ =>
    exact ⟨(hs.sound.lv_cache_new hnew).2.2.2.1, hs.waiting, hs.retrying⟩
  | @fills h c v hm _ hnew _ =>
    refine ⟨?_, hs.waiting, hs.retrying⟩
    obtain ⟨-, -, hun, hsound, -⟩ := hs.sound.lv_cache_new hnew
    show Sound _ (s.enqueue v lb).outstanding
    rw [outstanding_enqueue]
    exact hsound.cacheFill hun (hs.sound.count_of_missed hm) hminor

theorem Charged.congr (hs : Charged s) (hcache : t.cache = s.cache) (hout : t.outstanding = s.outstanding)
    (hwaiting : t.waiting = s.waiting) (hretrying : t.retrying = s.retrying) : Charged t := by
  refine ⟨?_, ?_, ?_⟩
  · rw [hcache, hout]
    exact hs.sound
  · rw [hwaiting]
    exact hs.waiting
  · rw [hretrying]
    exact hs.retrying


theorem Sound.scrubEntry {c' : Cache} (hs : Sound c M) (hscrub : Mwc.scrubEntry c minor h = .ok (b, c')) : Sound c' M := by
  obtain rfl | ⟨-, -, hidle, d, hrem, rfl⟩ := scrubEntry_cases hscrub
  · exact hs
  · refine (hs.lv_cache_remove hidle hrem).1.congr (useLru_hash ..) fun h => ?_
    rw [useLru_entry]
    exact ⟨rfl, rfl⟩

section

variable (hs : Charged s)
include hs

theorem Charged.update : Charged (lv_cache_update s) := by
  obtain ⟨pv, cacheWrite, heq, hpv⟩ := lv_cache_update_cases s
  rw [heq]
  refine hs.congr rfl (outstanding_congr (fun v => ?_) rfl rfl) rfl rfl
  change (pv v).wait = (s.pv v).wait
  rw [hpv v]

theorem Charged.scrub (hscrub : lv_cache_scrub s minor = .ok (b, t)) : Charged t := by
  obtain ⟨c, hwalk, rfl⟩ := lv_cache_scrub_cases hscrub
  have hc : Sound c s.outstanding :=
    scrubFrom_keeps (P := fun c => Sound c s.outstanding)
      (fun c c' h b hc hstep => hc.scrubEntry hstep) LVM_NUMMWC hs.sound hwalk
  have hu : Charged { s with cache := c } := ⟨hc, hs.waiting, hs.retrying⟩
  split
  · exact hu.update
  · exact hu

theorem Charged.start : Charged (lv_cache_start s) := by
  obtain heq | ⟨v, rest, -, -, heq⟩ := lv_cache_start_cases s
  · rw [heq]
    exact hs
  · rw [heq]
    have hstamp : Charged s.stampRecord := by
      unfold Volgrp.stampRecord
      split
      · exact ⟨hs.sound, hs.waiting, hs.retrying⟩
      · exact hs
    have hwait : s.stampRecord.pv = s.pv := by
      unfold Volgrp.stampRecord
      split <;> rfl
    refine hstamp.congr rfl (outstanding_congr (fun u => ?_) rfl rfl) rfl rfl
    change (Function.update s.stampRecord.pv v _ u).wait = (s.stampRecord.pv u).wait
    by_cases hu : u = v
    · rw [hu, Function.update_self, hwait]
    · rw [Function.update_of_ne hu]

theorem Charged.takeWaiters : Charged (s.takeWaiters v error) := by
  refine hs.congr rfl ?_ rfl rfl
  cases error with
  | false => exact outstanding_take rfl rfl rfl rfl
  | true => exact outstanding_take rfl rfl rfl rfl

theorem Charged.cacheDone (hd : cacheDone s error = .ok t) : Charged t := by
  obtain ⟨v, u, -, -, -, rfl, hu⟩ := cacheDone_cases hd
  have hidle : Charged { s with inflight := none } := hs.congr rfl rfl rfl rfl
  refine Charged.takeWaiters ?_
  obtain rfl | ⟨-, b, hscrub⟩ := hu
  · exact hidle
  · exact hidle.scrub hscrub

theorem Charged.discharge {rest : List Buf} {e : Entry}
    (hi : s.drains[i]? = some (b, lb :: rest)) (hf : s.cache.find lb.key = some h) (he : e = { s.cache.entry h with iocnt := decIocnt (s.cache.entry h).iocnt }) :
    Sound (s.cache.setEntry h e) (s.advance i).outstanding := by
  have hsound := hs.sound
  rw [outstanding_advance hi] at hsound
  obtain ⟨-, hdec, hset⟩ := hsound.uncharge hf
  exact hset e (by rw [he]; rfl) ((congrArg Entry.iocnt he).trans hdec)

theorem Charged.drain (hd : drain s i = .ok (b, t)) : Charged t := by
  obtain ⟨error, lb, rest, h, hi, hf, hd⟩ := drain_cases hs.sound hd
  have hout := outstanding_advance hi
  have hself (e : Entry) (hkey : e.key = (s.cache.entry h).key)
      (hcnt : e.iocnt = (s.cache.entry h).iocnt) : Sound (s.cache.setEntry h e) s.outstanding := by
    refine hs.sound.congr rfl fun h' => ?_
    by_cases hh : h' = h
    · rw [hh, setEntry_self]
      exact ⟨hkey, hcnt⟩
    · rw [setEntry_of_ne _ _ _ hh]
      exact ⟨rfl, rfl⟩
  cases hd with
  | scheduled =>
    refine ⟨?_, hs.waiting, hs.retrying⟩
    have ht : ({ s.advance i with
        cache := s.cache.setEntry h { s.cache.entry h with changing := false }
        sched := s.sched ++ [lb] } : Volgrp).outstanding = lb.key ::ₘ (s.advance i).outstanding :=
      outstanding_schedule (fun _ => rfl) rfl rfl
    rw [ht, ← hout]
    exact hself _ rfl rfl
  | @requeued v _ =>
    refine ⟨?_, hs.waiting, hs.retrying⟩
    have ht : ({ (s.advance i).enqueue v lb with
        cache := s.cache.setEntry h { s.cache.entry h with pvol := some v } } :
          Volgrp).outstanding = s.outstanding :=
      (outstanding_enqueue (s := s.advance i)).trans hout.symm
    rw [ht]
    exact hself _ rfl rfl
  | discharged _ he _ => exact ⟨hs.discharge hi hf he, hs.waiting, hs.retrying⟩
  | @removed e c _ he hzero hrem =>
    have hfree : Sound { s.cache.setEntry h e with free := incFree s.cache.free }
        (s.advance i).outstanding := (hs.discharge hi hf he).congr rfl fun _ => ⟨rfl, rfl⟩
    refine ⟨?_, hs.waiting, hs.retrying⟩
    refine ((hfree.lv_cache_remove (h := h) ?_ ?_).1.congr (useLru_hash ..) fun h' => ?_)
    · change ((s.cache.setEntry h e).entry h).iocnt = 0
      rw [setEntry_self]
      exact hzero
    · change lv_cache_remove _ (MWC_THASH ((s.cache.setEntry h e).entry h).ltg) h = _
      have hltg : e.ltg = lb.key.2 := (congrArg Entry.ltg he).trans (congrArg Prod.snd (find_key hf))
      rw [setEntry_self, ← hrem, hltg]
    · rw [useLru_entry]
      exact ⟨rfl, rfl⟩

theorem Charged.complete {vgsaFailed : Bool} (hc : complete s lb vgsaFailed = .ok t) : Charged t := by
  obtain ⟨hmem, h, e, hf, he, rfl⟩ := complete_cases hs.sound hc
  have hout : s.outstanding = lb.key ::ₘ ({ s with sched := s.sched.erase lb } : Volgrp).outstanding :=
    outstanding_erase (fun _ => rfl) rfl hmem rfl
  have hsound := hs.sound
  rw [hout] at hsound
  obtain ⟨-, hdec, hset⟩ := hsound.uncharge hf
  have hcnt := (congrArg Entry.iocnt he).trans hdec
  exact ⟨(hset e (by rw [he]; rfl) hcnt).congr rfl fun _ => ⟨rfl, rfl⟩, hs.waiting, hs.retrying⟩

end

/-- The count of the entry that a request is charged to has not reached the end of its range. -/
def RoomFor (s : Volgrp) : Event → Prop
  | .submit lb => Roomy s lb
  | .retry => ∀ lb ∈ s.retrying.head?, Roomy s lb
  | _ => True

theorem Charged.step {i : Event} {f : Option Buf} (hs : Charged s) (hroom : RoomFor s i)
    (hstep : stepFails s i = .ok (f, t)) : Charged t := by
  cases i with
  | submit lb =>
    obtain ⟨hm, b, -, hc⟩ := submit_cases hs.sound hstep
    exact hs.checked hc hm hroom
  | start =>
    cases hstep
    exact hs.start
  | tear =>
    obtain ⟨u, hu, hf⟩ := map_eq_ok hstep
    cases hf
    obtain ⟨v, -, rfl⟩ := overwrite_cases hu
    exact hs.congr rfl rfl rfl rfl
  | land =>
    obtain ⟨u, hu, hf⟩ := map_eq_ok hstep
    cases hf
    obtain ⟨v, -, rfl⟩ := overwrite_cases hu
    exact hs.congr rfl rfl rfl rfl
  | cacheDone error =>
    obtain ⟨u, hu, hf⟩ := map_eq_ok hstep
    cases hf
    exact hs.cacheDone hu
  | drain i =>
    obtain ⟨⟨b, u⟩, hu, hf⟩ := map_eq_ok hstep
    cases hf
    exact hs.drain hu
  | complete lb vgsaFailed =>
    obtain ⟨u, hu, hf⟩ := map_eq_ok hstep
    cases hf
    exact hs.complete hu
  | take =>
    obtain ⟨-, rfl⟩ := take_cases hstep
    exact ⟨hs.sound, fun _ hlb => absurd hlb (not_mem_nil), hs.waiting⟩
  | retry =>
    obtain ⟨lb, rest, b, hr, -, hc⟩ := retry_cases hs.sound hstep
    have hrest : Charged { s with retrying := rest } :=
      ⟨hs.sound, hs.waiting, fun x hx => hs.retrying x (hr ▸ mem_cons_of_mem _ hx)⟩
    have hm : lb.minor ≠ 0 := hs.retrying lb (hr ▸ mem_cons_self ..)
    have hroom : Roomy s lb := hroom lb (by rw [hr]; rfl)
    exact hrest.checked hc hm hroom
  | clean minor =>
    obtain ⟨-, -, rfl | ⟨-, b, u, hscrub, rfl⟩⟩ := clean_cases hstep
    · exact hs.congr rfl rfl rfl rfl
    · split
      · exact (hs.scrub hscrub).start
      · exact hs.scrub hscrub
  | env missing maxmirrors copies =>
    cases hstep
    exact hs.congr rfl (outstanding_congr (fun _ => rfl) rfl rfl) rfl rfl

theorem Activated.charged (hs : Activated s) : Charged s := by
  have hout : s.outstanding = 0 := by
    unfold Volgrp.outstanding waitKeys
    rw [hs.drains, hs.sched, Finset.sum_eq_zero fun v _ => by rw [hs.wait v]; rfl]
    rfl
  refine ⟨?_, by rw [hs.waiting]; exact fun _ h => absurd h not_mem_nil,
    by rw [hs.retrying]; exact fun _ h => absurd h not_mem_nil⟩
  rw [hout, hs.cache]
  exact ⟨fun _ => nodup_nil, fun _ _ h => absurd h not_mem_nil,
    fun _ h => absurd rfl h, fun _ => rfl, fun _ => Nat.two_pow_pos 16⟩

end Counts

end Osf1.Mwc
