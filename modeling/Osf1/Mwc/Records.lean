import Osf1.Mwc.Entries

/-!
# The records on the disk

A record that has been written in full is newer than what was on the disk before, and has every track group
that is hashed when it gets there. No track group is added while a record is on its way.
-/

set_option autoImplicit false

namespace Osf1.Mwc

open Function

open Osf1.Computation

/-- The record has a track group. -/
def Rec.Has (r : Rec) (k : ℕ × ℕ) : Prop := ∃ h, r.pairs h = k

/-- An entry for the track group is hashed. -/
def Cache.Logs (c : Cache) (k : ℕ × ℕ) : Prop := ∃ cls h, h ∈ c.hash cls ∧ (c.entry h).key = k

/-- The place of a volume that is not being written to. -/
def Volgrp.place (s : Volgrp) (v : Pvnum) : Bool :=
  if s.inflight = some v then !(s.pv v).toggle else (s.pv v).toggle

/-- The last record that was written in full has the track group, and so has every one on the disk
that is at least as new. -/
def Covered (s : Volgrp) (k : ℕ × ℕ) : Prop :=
  ∃ u r, s.last = some u ∧ s.disk u (s.place u) = some r ∧ r.bstamp = r.estamp ∧
    ∀ v b r', s.disk v b = some r' → r.bstamp ≤ r'.bstamp → r'.Has k

/-- The time stamps. -/
structure Stamped (s : Volgrp) : Prop where
  disk : ∀ v b r, s.disk v b = some r → r.bstamp ≤ s.clock
  bstamp : s.bstamp ≤ s.clock
  inflight : s.inflight.isSome → s.changed = false
  estamp : s.changed = false → s.estamp = s.bstamp
  whole : s.changed = false → ∀ v b r, s.disk v b = some r → s.bstamp ≤ r.bstamp → ∀ k, s.cache.Logs k → r.Has k
  landed : ∀ v, s.inflight = some v → s.landed = true →
    ∃ r, s.disk v (s.pv v).toggle = some r ∧ r.bstamp = s.bstamp ∧ r.estamp = s.estamp

variable {s t : Volgrp} {v : Pvnum} {k : ℕ × ℕ} {c c' : Cache}

theorem Covered.congr (hc : Covered s k) (hdisk : t.disk = s.disk) (hlast : t.last = s.last)
    (hplace : ∀ v, t.place v = s.place v) : Covered t k := by
  obtain ⟨u, r, hu, hr, hcomplete, hnewer⟩ := hc
  refine ⟨u, r, hlast.trans hu, ?_, hcomplete, ?_⟩
  · rw [hdisk, hplace]
    exact hr
  · rw [hdisk]
    exact hnewer

theorem Covered.keep (hc : Covered s k) (hdisk : t.disk = s.disk) (hlast : t.last = s.last)
    (hinflight : t.inflight = s.inflight) (htoggle : ∀ v, (t.pv v).toggle = (s.pv v).toggle) : Covered t k := by
  refine hc.congr hdisk hlast fun v => ?_
  unfold Volgrp.place
  rw [hinflight, htoggle]

theorem Stamped.congr (hs : Stamped s) (hlogs : ∀ k, t.cache.Logs k → s.cache.Logs k)
    (hdisk : t.disk = s.disk) (hclock : t.clock = s.clock) (hbstamp : t.bstamp = s.bstamp)
    (hestamp : t.estamp = s.estamp) (hchanged : t.changed = s.changed)
    (hinflight : t.inflight = s.inflight) (hlanded : t.landed = s.landed)
    (htoggle : ∀ v, (t.pv v).toggle = (s.pv v).toggle) : Stamped t where
  disk := by
    rw [hdisk, hclock]
    exact hs.disk
  bstamp := by
    rw [hbstamp, hclock]
    exact hs.bstamp
  inflight := by
    rw [hinflight, hchanged]
    exact hs.inflight
  estamp := by
    rw [hchanged, hestamp, hbstamp]
    exact hs.estamp
  whole := by
    rw [hchanged, hdisk, hbstamp]
    exact fun hc v b r hr hle k hk => hs.whole hc v b r hr hle k (hlogs k hk)
  landed := by
    intro v
    rw [hinflight, hlanded, hdisk, htoggle, hbstamp, hestamp]
    exact hs.landed v

theorem Stamped.change (hs : Stamped s) (hdisk : t.disk = s.disk) (hclock : s.clock ≤ t.clock)
    (hbstamp : t.bstamp ≤ t.clock) (hchanged : t.changed = true) (hinflight : t.inflight = none) : Stamped t where
  disk := by
    rw [hdisk]
    exact fun v b r hr => (hs.disk v b r hr).trans hclock
  bstamp := hbstamp
  inflight := by
    rw [hinflight]
    exact fun h => absurd h Bool.false_ne_true
  estamp := fun h => absurd (hchanged.symm.trans h) Bool.noConfusion
  whole := fun h => absurd (hchanged.symm.trans h) Bool.noConfusion
  landed := by
    rw [hinflight]
    exact fun v hv => by cases hv

theorem Stamped.quiet (hs : Stamped s) (hlogs : ∀ k, t.cache.Logs k → s.cache.Logs k)
    (hdisk : t.disk = s.disk) (hclock : t.clock = s.clock) (hbstamp : t.bstamp = s.bstamp)
    (hestamp : t.estamp = s.estamp) (hchanged : t.changed = s.changed)
    (hinflight : t.inflight = none) : Stamped t where
  disk := by
    rw [hdisk, hclock]
    exact hs.disk
  bstamp := by
    rw [hbstamp, hclock]
    exact hs.bstamp
  inflight := by
    rw [hinflight]
    exact fun h => absurd h Bool.false_ne_true
  estamp := by
    rw [hchanged, hestamp, hbstamp]
    exact hs.estamp
  whole := by
    rw [hchanged, hdisk, hbstamp]
    exact fun hc v b r hr hle k hk => hs.whole hc v b r hr hle k (hlogs k hk)
  landed := by
    rw [hinflight]
    exact fun v hv => by cases hv

section Start

theorem Stamped.stampRecord (hs : Stamped s) : Stamped s.stampRecord := by
  unfold Volgrp.stampRecord
  split
  · rename_i hchanged
    have hinflight : s.inflight = none := by
      by_contra hi
      have := hs.inflight (Option.ne_none_iff_isSome.mp hi)
      rw [hchanged] at this
      cases this
    refine ⟨fun v b r hr => (hs.disk v b r hr).trans (Nat.le_succ _), le_rfl, fun _ => rfl,
      fun _ => rfl, fun _ v b r hr hle => ?_, fun v hv => ?_⟩
    · exact absurd (hs.disk v b r hr) (Nat.not_le_of_lt hle)
    · cases hinflight.symm.trans hv
  · exact hs

theorem stampRecord_changed (s : Volgrp) : s.stampRecord.changed = false := by
  unfold Volgrp.stampRecord
  split
  · rfl
  · rename_i hc
    simpa using hc

theorem stampRecord_frame (s : Volgrp) : s.stampRecord.pv = s.pv ∧ s.stampRecord.disk = s.disk ∧
    s.stampRecord.last = s.last ∧ s.stampRecord.cache = s.cache ∧
    s.stampRecord.drains = s.drains ∧ s.stampRecord.sched = s.sched := by
  unfold Volgrp.stampRecord
  split <;> exact ⟨rfl, rfl, rfl, rfl, rfl, rfl⟩

theorem Stamped.start (hs : Stamped s) : Stamped (lv_cache_start s) := by
  obtain heq | ⟨v, rest, -, -, heq⟩ := lv_cache_start_cases s
  · rw [heq]
    exact hs
  · rw [heq]
    have hstamp := hs.stampRecord
    exact ⟨hstamp.disk, hstamp.bstamp, fun _ => stampRecord_changed s, hstamp.estamp, hstamp.whole,
      fun _ _ h => absurd h Bool.false_ne_true⟩

theorem start_place (s : Volgrp) (u : Pvnum) : (lv_cache_start s).place u = s.place u := by
  obtain heq | ⟨v, rest, hi, -, heq⟩ := lv_cache_start_cases s
  · rw [heq]
  · rw [heq]
    obtain ⟨hpv, -⟩ := stampRecord_frame s
    unfold Volgrp.place
    rw [hi]
    change (if some v = some u then
        !(update s.stampRecord.pv v _ u).toggle
      else (update s.stampRecord.pv v _ u).toggle) = (s.pv u).toggle
    by_cases hu : u = v
    · rw [hu, if_pos rfl, update_self]
      exact Bool.not_not _
    · rw [if_neg fun h => hu (Option.some.inj h).symm, update_of_ne hu, hpv]

theorem Covered.start (hc : Covered s k) : Covered (lv_cache_start s) k := by
  refine hc.congr ?_ ?_ (start_place s)
  · obtain heq | ⟨v, rest, hi, -, heq⟩ := lv_cache_start_cases s
    · rw [heq]
    · rw [heq]
      exact (stampRecord_frame s).2.1
  · obtain heq | ⟨v, rest, hi, -, heq⟩ := lv_cache_start_cases s
    · rw [heq]
    · rw [heq]
      exact (stampRecord_frame s).2.2.1

end Start

section Overwrite

variable {r : Option Rec}

theorem disk_overwrite {u : Pvnum} {b : Bool} {r' : Rec}
    (hr : update s.disk v (update (s.disk v) (s.pv v).toggle r) u b = some r') :
    r = some r' ∨ s.disk u b = some r' := by
  by_cases hu : u = v
  · subst hu
    rw [update_self] at hr
    by_cases hb : b = (s.pv u).toggle
    · subst hb
      rw [update_self] at hr
      exact .inl hr
    · rw [update_of_ne hb] at hr
      exact .inr hr
  · rw [update_of_ne hu] at hr
    exact .inr hr

theorem Stamped.tear (hs : Stamped s) (ho : s.overwrite none = .ok t) : Stamped t := by
  obtain ⟨v, hv, rfl⟩ := overwrite_cases ho
  have hold (u : Pvnum) (b : Bool) (r : Rec) (hr : update s.disk v
      (update (s.disk v) (s.pv v).toggle none) u b = some r) : s.disk u b = some r := by
    refine (disk_overwrite hr).resolve_left fun h => ?_
    cases h
  exact ⟨fun u b r hr => hs.disk u b r (hold u b r hr), hs.bstamp, hs.inflight, hs.estamp,
    fun hc u b r hr => hs.whole hc u b r (hold u b r hr), fun _ _ h => absurd h Bool.false_ne_true⟩

theorem record_has (hk : s.cache.Logs k) : s.record.Has k := by
  obtain ⟨cls, h, -, hkey⟩ := hk
  exact ⟨h, hkey⟩

theorem Stamped.land (hs : Stamped s) (ho : s.overwrite (some s.record) = .ok t) : Stamped t := by
  obtain ⟨v, hv, rfl⟩ := overwrite_cases ho
  refine ⟨fun u b r hr => ?_, hs.bstamp, hs.inflight, hs.estamp, fun hc u b r hr hle k hk => ?_, fun u hu _ => ?_⟩
  · obtain heq | hr := disk_overwrite hr
    · cases heq
      exact hs.bstamp
    · exact hs.disk u b r hr
  · obtain heq | hr := disk_overwrite hr
    · cases heq
      exact record_has hk
    · exact hs.whole hc u b r hr hle k hk
  · cases hv.symm.trans hu
    refine ⟨s.record, ?_, rfl, rfl⟩
    change update s.disk v (update (s.disk v) (s.pv v).toggle _) v _ = _
    rw [update_self, update_self]

theorem Covered.overwrite (hc : Covered s k) (ho : s.overwrite r = .ok t) (hr : ∀ r' ∈ r, r'.Has k) : Covered t k := by
  obtain ⟨v, hv, rfl⟩ := overwrite_cases ho
  obtain ⟨u, r₀, hu, hr₀, hcomplete, hnewer⟩ := hc
  refine ⟨u, r₀, hu, ?_, hcomplete, fun w b r' hr' hle => ?_⟩
  · change update s.disk v (update (s.disk v) (s.pv v).toggle r) u (s.place u) = _
    by_cases huv : u = v
    · subst huv
      have hplace : s.place u ≠ (s.pv u).toggle := by
        unfold Volgrp.place
        rw [if_pos hv]
        exact Bool.not_ne_self _
      rw [update_self, update_of_ne hplace]
      exact hr₀
    · rw [update_of_ne huv]
      exact hr₀
  · obtain heq | hr' := disk_overwrite hr'
    · exact hr r' heq
    · exact hnewer w b r' hr' hle

end Overwrite

section Done

/-- What is hashed is what was hashed, with the entries as they were. -/
def Thin (c' c : Cache) : Prop := ∀ cls h, h ∈ c'.hash cls → h ∈ c.hash cls ∧ c'.entry h = c.entry h

theorem Thin.logs (ht : Thin c' c) (hk : c'.Logs k) : c.Logs k := by
  obtain ⟨cls, h, hh, hkey⟩ := hk
  obtain ⟨hmem, hentry⟩ := ht cls h hh
  exact ⟨cls, h, hmem, by rw [← hentry]; exact hkey⟩

theorem Thin.trans {c'' : Cache} (h₁ : Thin c'' c') (h₂ : Thin c' c) : Thin c'' c := by
  intro cls h hh
  obtain ⟨hmem, hentry⟩ := h₁ cls h hh
  obtain ⟨hmem', hentry'⟩ := h₂ cls h hmem
  exact ⟨hmem', hentry.trans hentry'⟩

variable {M : Multiset (ℕ × ℕ)} {h : Slot} {minor : ℕ} {b : Bool} {u : Volgrp}

theorem Sound.thin_remove (hs : Sound c M) (hidle : (c.entry h).iocnt = 0)
    (hrem : Mwc.lv_cache_remove c (MWC_THASH (c.entry h).ltg) h = .ok c') : Thin c' c := by
  obtain ⟨-, hun, heq⟩ := hs.lv_cache_remove hidle hrem
  intro cls x hx
  have hne : x ≠ h := fun hxh => hun cls (hxh ▸ hx)
  rw [heq] at hx ⊢
  exact ⟨mem_of_mem_unhash c h hx, setEntry_of_ne (c.unhash _ h) h _ hne⟩

theorem thin_useLru (c : Cache) (h : Slot) : Thin (c.useLru h) c := by
  intro cls x hx
  rw [useLru_hash] at hx
  exact ⟨hx, congrFun (useLru_entry c h) x⟩

theorem Sound.thin_scrub {n : ℕ} {lststart : Slot} {chg : Bool}
    (hs : Sound c M) (hwalk : scrubFrom minor lststart n h chg c = .ok (b, c')) : Sound c' M ∧ Thin c' c := by
  refine scrubFrom_keeps (P := fun d => Sound d M ∧ Thin d c) ?_ n
    ⟨hs, fun _ _ hh => ⟨hh, rfl⟩⟩ hwalk
  rintro d d' x b' ⟨hd, hthin⟩ hstep
  refine ⟨hd.scrubEntry hstep, ?_⟩
  obtain rfl | ⟨-, -, hidle, d₁, hrem, rfl⟩ := scrubEntry_cases hstep
  · exact hthin
  · exact ((thin_useLru d₁ x).trans (hd.thin_remove hidle hrem)).trans hthin

theorem lv_cache_scrub_frame (hs : Sound s.cache M) (hscrub : lv_cache_scrub s minor = .ok (b, t)) :
    Thin t.cache s.cache ∧ t.disk = s.disk ∧ t.last = s.last ∧ t.inflight = s.inflight ∧
      t.drains = s.drains ∧ t.sched = s.sched ∧ ∀ v, (t.pv v).toggle = (s.pv v).toggle := by
  obtain ⟨c, hwalk, rfl⟩ := lv_cache_scrub_cases hscrub
  have hthin := (hs.thin_scrub hwalk).2
  split
  · obtain ⟨pv, cacheWrite, heq, hpv⟩ := lv_cache_update_cases { s with cache := c }
    rw [heq]
    refine ⟨hthin, rfl, rfl, rfl, rfl, rfl, fun v => ?_⟩
    change (pv v).toggle = (s.pv v).toggle
    rw [hpv v]
  · exact ⟨hthin, rfl, rfl, rfl, rfl, rfl, fun v => rfl⟩

theorem Stamped.scrub (hst : Stamped s) (hs : Sound s.cache M) (hi : s.inflight = none)
    (hscrub : lv_cache_scrub s minor = .ok (b, t)) : Stamped t := by
  obtain ⟨c, hwalk, rfl⟩ := lv_cache_scrub_cases hscrub
  have hthin := (hs.thin_scrub hwalk).2
  split
  · obtain ⟨pv, cacheWrite, heq, -⟩ := lv_cache_update_cases { s with cache := c }
    rw [heq]
    exact hst.change rfl (Nat.le_succ _) le_rfl rfl hi
  · exact hst.quiet (fun k => hthin.logs) rfl rfl rfl rfl rfl hi

theorem Covered.scrub (hc : Covered s k) (hs : Sound s.cache M) (hscrub : lv_cache_scrub s minor = .ok (b, t)) : Covered t k := by
  obtain ⟨-, hdisk, hlast, hi, -, -, htoggle⟩ := lv_cache_scrub_frame hs hscrub
  exact hc.keep hdisk hlast hi htoggle

theorem Stamped.takeWaiters {error : Bool} (hs : Stamped s) (hi : s.inflight = none) :
    Stamped (s.takeWaiters v error) :=
  hs.quiet (fun _ => id) rfl rfl rfl rfl rfl hi

theorem takeWaiters_toggle (s : Volgrp) (v u : Pvnum) (error : Bool) :
    ((s.takeWaiters v error).pv u).toggle =
      if error = true ∧ u = v then !(s.pv u).toggle else (s.pv u).toggle := by
  change (update s.pv v _ u).toggle = _
  by_cases hu : u = v
  · rw [hu, update_self]
    cases error with
    | false => rfl
    | true => exact (if_pos ⟨rfl, rfl⟩).symm
  · rw [update_of_ne hu, if_neg fun h => hu h.2]

theorem Stamped.covered (hs : Stamped s) (hv : s.inflight = some v)
    (hland : s.landed = true) (hk : s.cache.Logs k) (hdisk : u.disk = s.disk)
    (hi : u.inflight = none) (htoggle : ∀ v, (u.pv v).toggle = (s.pv v).toggle) :
    Covered (u.takeWaiters v false) k := by
  have hchanged := hs.inflight (by rw [hv]; rfl)
  obtain ⟨r, hr, hb, he⟩ := hs.landed v hv hland
  refine ⟨v, r, rfl, ?_, ?_, fun w b r' hr' hle => ?_⟩
  · have hplace : (u.takeWaiters v false).place v = (s.pv v).toggle := by
      unfold Volgrp.place
      rw [show (u.takeWaiters v false).inflight = none from hi, if_neg (by simp),
        takeWaiters_toggle, if_neg (by simp), htoggle]
    rw [hplace, ← hr, ← hdisk]
    rfl
  · rw [hb, he, hs.estamp hchanged]
  · refine hs.whole hchanged w b r' ?_ (hb ▸ hle) k hk
    rw [← hdisk]
    exact hr'

theorem Covered.failed (hc : Covered s k) (hv : s.inflight = some v)
    (hdisk : u.disk = s.disk) (hlast : u.last = s.last) (hi : u.inflight = none)
    (htoggle : ∀ v, (u.pv v).toggle = (s.pv v).toggle) : Covered (u.takeWaiters v true) k := by
  refine hc.congr hdisk hlast fun w => ?_
  unfold Volgrp.place
  rw [show (u.takeWaiters v true).inflight = none from hi, if_neg (by simp), takeWaiters_toggle, htoggle, hv]
  by_cases hw : w = v
  · rw [if_pos ⟨rfl, hw⟩, hw, if_pos rfl]
  · rw [if_neg fun h => hw h.2, if_neg fun h => hw (Option.some.inj h).symm]

end Done

end Osf1.Mwc
