import Osf1.Mwc.Records

/-!
# What is scheduled is logged

A write is scheduled when the entry of its track group is not changing, or when a record has been
written since it was charged to the entry.  Both say that the track group is on the disk.
-/

set_option autoImplicit false

namespace Osf1.Mwc

open Function List

open Osf1.Computation

/-- What the states of the entries say about the track groups that have property `C`. -/
structure Marked (C : ℕ × ℕ → Prop) (c : Cache) (drains : List (Bool × List Buf))
    (sched : List Buf) : Prop where
  frozen : ∀ cls h, h ∈ c.hash cls → (c.entry h).frozen = true → (c.entry h).changing = false
  marked : ∀ cls h, h ∈ c.hash cls → (c.entry h).changing = false → C (c.entry h).key
  draining : ∀ d ∈ drains, d.1 = false → ∀ lb ∈ d.2, C lb.key
  sched : ∀ lb ∈ sched, ∀ h, c.find lb.key = some h → (c.entry h).changing = false

variable {s t : Volgrp} {lb : Buf} {v : Pvnum} {h : Slot} {k : ℕ × ℕ} {c c' : Cache}
  {C C' : ℕ × ℕ → Prop} {drains drains' : List (Bool × List Buf)} {sched sched' : List Buf}
  {e : Entry}

section Marked

theorem logs_of_find (hf : c.find k = some h) : c.Logs k := ⟨_, h, find_mem hf, find_key hf⟩

variable {M : Multiset (ℕ × ℕ)}

theorem Sound.logs (hs : Sound c M) (hk : k ∈ M) : c.Logs k := by
  obtain ⟨h, hf, -⟩ := hs.find_of_mem hk
  exact logs_of_find hf

theorem Marked.mono (hm : Marked C c drains sched)
    (hlogs : ∀ d ∈ drains, ∀ lb ∈ d.2, c.Logs lb.key) (hC : ∀ k, c.Logs k → C k → C' k) :
    Marked C' c drains sched where
  frozen := hm.frozen
  marked := fun cls h hh hc => hC _ ⟨cls, h, hh, rfl⟩ (hm.marked cls h hh hc)
  draining := fun d hd hok lb hlb => hC _ (hlogs d hd lb hlb) (hm.draining d hd hok lb hlb)
  sched := hm.sched

theorem Marked.less (hm : Marked C c drains sched) (hentry : c'.entry = c.entry) (hhash : c'.hash = c.hash)
    (hdrains : ∀ d ∈ drains', d.1 = false → ∀ lb ∈ d.2, C lb.key)
    (hsched : ∀ lb ∈ sched', lb ∈ sched) : Marked C c' drains' sched' where
  frozen := by
    rw [hentry, hhash]
    exact hm.frozen
  marked := by
    rw [hentry, hhash]
    exact hm.marked
  draining := hdrains
  sched := by
    intro lb hlb h hf
    rw [hentry]
    refine hm.sched lb (hsched lb hlb) h ?_
    rw [← hf]
    exact (find_congr (congrFun hhash _) fun _ _ => by rw [hentry]).symm

theorem find_setEntry (hkey : e.key = (c.entry h).key) : (c.setEntry h e).find k = c.find k := by
  refine find_congr rfl fun h' _ => ?_
  by_cases hh : h' = h
  · rw [hh, setEntry_self, hkey]
  · rw [setEntry_of_ne _ _ _ hh]

section

variable (hm : Marked C c drains sched)
include hm

theorem Marked.setEntry (hkey : e.key = (c.entry h).key)
    (hfrozen : e.frozen = true → e.changing = false) (hmarked : e.changing = false → C e.key)
    (hchanging : (c.entry h).changing = false → e.changing = false) : Marked C (c.setEntry h e) drains sched where
  frozen := by
    intro cls h' hh'
    by_cases hh : h' = h
    · rw [hh, setEntry_self]
      exact hfrozen
    · rw [setEntry_of_ne _ _ _ hh]
      exact hm.frozen cls h' hh'
  marked := by
    intro cls h' hh'
    by_cases hh : h' = h
    · rw [hh, setEntry_self]
      exact hmarked
    · rw [setEntry_of_ne _ _ _ hh]
      exact hm.marked cls h' hh'
  draining := hm.draining
  sched := by
    intro lb hlb h' hf
    rw [find_setEntry hkey] at hf
    have hold := hm.sched lb hlb h' hf
    by_cases hh : h' = h
    · subst hh
      rw [setEntry_self]
      exact hchanging hold
    · rw [setEntry_of_ne _ _ _ hh]
      exact hold

theorem Marked.thin {M' : Multiset (ℕ × ℕ)} (hs : Sound c M)
    (hs' : Sound c' M') (hsched : ∀ lb ∈ sched, lb.key ∈ M') (ht : Thin c' c) : Marked C c' drains sched where
  frozen := by
    intro cls h hh
    obtain ⟨hmem, hentry⟩ := ht cls h hh
    rw [hentry]
    exact hm.frozen cls h hmem
  marked := by
    intro cls h hh
    obtain ⟨hmem, hentry⟩ := ht cls h hh
    rw [hentry]
    exact hm.marked cls h hmem
  draining := hm.draining
  sched := by
    intro lb hlb h hf
    obtain ⟨hmem, hentry⟩ := ht _ h (find_mem hf)
    have hkey := find_key hf
    obtain ⟨h', hf', hcount⟩ := hs'.find_of_mem (hsched lb hlb)
    cases hf.symm.trans hf'
    have hpos := Multiset.count_pos.mpr (hsched lb hlb)
    rw [hentry] at hkey hcount ⊢
    have hbusy := hs.busy h (by omega)
    rw [hkey] at hbusy
    exact hm.sched lb hlb h hbusy

theorem Marked.fill (hun : c.Unhashed h)
    (hsched : ∀ lb ∈ sched, lb.key ≠ k) : Marked C (c.fill h v k) drains sched := by
  have hself : (c.fill h v k).entry h = ⟨1, true, false, some v, k.2, k.1⟩ := by
    unfold Cache.fill
    rw [useMru_entry]
    exact update_self ..
  have hother (h' : Slot) (hh : h' ≠ h) : (c.fill h v k).entry h' = c.entry h' := by
    unfold Cache.fill
    rw [useMru_entry]
    exact update_of_ne hh ..
  have hchain : (c.fill h v k).hash =
      update c.hash (MWC_THASH k.2) (h :: c.hash (MWC_THASH k.2)) := by
    unfold Cache.fill
    rw [useMru_hash]
  have hmem (cls : ℕ) (h' : Slot) (hh : h' ≠ h) (hh' : h' ∈ (c.fill h v k).hash cls) :
      h' ∈ c.hash cls := by
    rw [hchain] at hh'
    by_cases hcls : cls = MWC_THASH k.2
    · rw [hcls, update_self] at hh'
      rw [hcls]
      exact mem_of_ne_of_mem hh hh'
    · rwa [update_of_ne hcls] at hh'
  refine ⟨fun cls h' hh' hfrozen => ?_, fun cls h' hh' hchanging => ?_, hm.draining, fun lb hlb h' hf => ?_⟩
  · by_cases hh : h' = h
    · rw [hh, hself] at hfrozen
      cases hfrozen
    · rw [hother h' hh] at hfrozen ⊢
      exact hm.frozen cls h' (hmem cls h' hh hh') hfrozen
  · by_cases hh : h' = h
    · rw [hh, hself] at hchanging
      cases hchanging
    · rw [hother h' hh] at hchanging ⊢
      exact hm.marked cls h' (hmem cls h' hh hh') hchanging
  · have hh : h' ≠ h := by
      rintro rfl
      refine hsched lb hlb ((find_key hf).symm.trans ?_)
      rw [hself]
      rfl
    rw [hother h' hh]
    refine hm.sched lb hlb h' ?_
    rw [← hf]
    -- The entry in front of the chain is for another track group.
    unfold Cache.find
    have hsame : (c.hash (MWC_THASH lb.key.2)).find? (fun x => decide ((c.entry x).key = lb.key)) =
        (c.hash (MWC_THASH lb.key.2)).find?
          (fun x => decide (((c.fill h v k).entry x).key = lb.key)) := by
      apply find?_congr
      intro x hx
      have hxh : x ≠ h := fun hxh => hun _ (hxh ▸ hx)
      rw [hother x hxh]
    rw [hsame, hchain]
    by_cases hcls : MWC_THASH lb.key.2 = MWC_THASH k.2
    · rw [hcls, update_self, find?_cons_of_neg]
      rw [hself]
      exact fun heq => (hsched lb hlb).symm (of_decide_eq_true heq)
    · rw [update_of_ne hcls]

end

end Marked

/-- The entries, the time stamps and the disk agree. -/
structure Recorded (s : Volgrp) : Prop where
  charged : Charged s
  stamped : Stamped s
  marked : Marked (Covered s) s.cache s.drains s.sched

section Outstanding

theorem mem_outstanding_sched (hlb : lb ∈ s.sched) : lb.key ∈ s.outstanding := by
  rw [Volgrp.outstanding, Multiset.mem_add]
  exact .inr (Multiset.mem_coe.mpr (mem_map_of_mem hlb))

variable {d : Bool × List Buf}

theorem mem_outstanding_drains (hd : d ∈ s.drains) (hlb : lb ∈ d.2) : lb.key ∈ s.outstanding := by
  rw [Volgrp.outstanding, Multiset.mem_add, Multiset.mem_add]
  have hmem : lb ∈ s.drains.flatMap Prod.snd := mem_flatMap.mpr ⟨d, hd, hlb⟩
  exact .inl (.inr (Multiset.mem_coe.mpr (mem_map_of_mem hmem)))

theorem mem_advance {i : ℕ} (hd : d ∈ (s.advance i).drains) :
    ∃ d' ∈ s.drains, d.1 = d'.1 ∧ ∀ lb ∈ d.2, lb ∈ d'.2 := by
  obtain ⟨j, hj⟩ := mem_iff_getElem?.mp hd
  change (s.drains.modify i _)[j]? = _ at hj
  rw [getElem?_modify] at hj
  obtain ⟨d', hd', heq⟩ := Option.map_eq_some_iff.mp hj
  refine ⟨d', mem_of_getElem? hd', ?_⟩
  split at heq
  · cases heq
    exact ⟨rfl, fun lb hlb => mem_of_mem_tail hlb⟩
  · cases heq
    exact ⟨rfl, fun lb hlb => hlb⟩

theorem Recorded.of_marked (ht : Charged t) (hstamped : Stamped t)
    (hm : Marked C t.cache t.drains t.sched) (hC : ∀ k, t.cache.Logs k → C k → Covered t k) : Recorded t := by
  refine ⟨ht, hstamped, hm.mono (fun d hd lb hlb => ?_) hC⟩
  have hmem : lb.key ∈ t.outstanding := mem_outstanding_drains hd hlb
  exact ht.sound.logs hmem

end Outstanding

section Steps

theorem Marked.charge (hm : Marked C c drains sched) (hh : ∃ cls, h ∈ c.hash cls) :
    Marked C (c.charge h) drains sched := by
  obtain ⟨cls, hh⟩ := hh
  have hset := hm.setEntry (h := h)
    (e := { c.entry h with iocnt := incIocnt (c.entry h).iocnt }) rfl (hm.frozen cls h hh)
    (hm.marked cls h hh) id
  refine hset.less ?_ ?_ hset.draining fun _ => id
  · unfold Cache.charge Cache.setEntry
    simp
  · unfold Cache.charge Cache.setEntry
    simp

theorem logs_charge (hk : (c.charge h).Logs k) : c.Logs k := by
  obtain ⟨cls, h', hh', hkey⟩ := hk
  have hhash : (c.charge h).hash = c.hash := useMru_hash c h
  have hentry : ((c.charge h).entry h').key = (c.entry h').key := by
    unfold Cache.charge
    simp only [useMru_entry]
    by_cases hh : h' = h
    · rw [hh, update_self]
      rfl
    · rw [update_of_ne hh]
  rw [hhash] at hh'
  exact ⟨cls, h', hh', hentry ▸ hkey⟩

theorem Sound.thin_new {M : Multiset (ℕ × ℕ)} (hs : Sound c M)
    (hnew : Mwc.lv_cache_new c = .ok (some (h, c'))) : Thin c' c := by
  obtain ⟨-, -, -, -, ⟨rfl, -⟩ | ⟨rfl, -⟩⟩ := hs.lv_cache_new hnew
  · exact fun _ _ hh => ⟨hh, rfl⟩
  · exact fun _ _ hh => ⟨mem_of_mem_unhash c h hh, rfl⟩

theorem setPv_toggle {p : Pv} (hp : p.toggle = (s.pv v).toggle) (u : Pvnum) :
    ((s.setPv v p).pv u).toggle = (s.pv u).toggle := by
  change (update s.pv v p u).toggle = _
  by_cases hu : u = v
  · rw [hu, update_self, hp]
  · rw [update_of_ne hu]

theorem find_charge : (c.charge h).find k = c.find k := by
  refine find_congr (congrFun (useMru_hash c h) _) fun h' _ => ?_
  unfold Cache.charge
  simp only [useMru_entry]
  by_cases hh : h' = h
  · rw [hh, update_self]
    rfl
  · rw [update_of_ne hh]

variable {b : Bool}

section

variable (hs : Recorded s)
include hs

theorem Recorded.checked (hc : Checked s lb b t) (ht : Charged t) : Recorded t := by
  have hsound := hs.charged.sound
  cases hc with
  | waits =>
    exact .of_marked ht (hs.stamped.congr (fun _ => id) rfl rfl rfl rfl rfl rfl rfl fun _ => rfl)
      hs.marked fun k _ hk => hk.keep rfl rfl rfl fun _ => rfl
  | @hitWaits h v hf _ _ _ _ =>
    have htoggle := setPv_toggle (s := s) (v := v)
      (p := { s.pv v with wait := (s.pv v).wait ++ [lb] }) rfl
    exact .of_marked ht (hs.stamped.congr (fun k => logs_charge) rfl rfl rfl rfl rfl rfl rfl htoggle)
      (hs.marked.charge ⟨_, find_mem hf⟩) fun k _ hk =>
        hk.keep rfl rfl rfl htoggle
  | @hitScheduled h hf _ hfrozen =>
    have hm := hs.marked.charge ⟨_, find_mem hf⟩
    have hchanging : (s.cache.entry h).changing = false := by
      cases hch : (s.cache.entry h).changing with
      | false => rfl
      | true => exact hch.symm.trans (hs.marked.frozen _ h (find_mem hf) (hfrozen hch))
    refine .of_marked ht
      (hs.stamped.congr (fun k => logs_charge) rfl rfl rfl rfl rfl rfl rfl fun _ => rfl)
      (C := Covered s) ?_ fun k _ hk => hk.keep rfl rfl rfl fun _ => rfl
    refine ⟨hm.frozen, hm.marked, hm.draining, fun lb' hlb' h' hf' => ?_⟩
    rcases mem_append.mp hlb' with hlb' | hlb'
    · exact hm.sched lb' hlb' h' hf'
    · rw [mem_singleton.mp hlb'] at hf'
      cases hf.symm.trans (find_charge.symm.trans hf')
      unfold Cache.charge
      simp only [update_self]
      exact hchanging
  | @fails h c _ _ hnew _ =>
    have hthin := hsound.thin_new hnew
    have hc := (hsound.lv_cache_new hnew).2.2.2.1
    exact .of_marked ht
      (hs.stamped.congr (fun k => hthin.logs) rfl rfl rfl rfl rfl rfl rfl fun _ => rfl)
      (hs.marked.thin hsound hc (fun lb hlb => mem_outstanding_sched hlb) hthin)
      fun k _ hk => hk.keep rfl rfl rfl fun _ => rfl
  | @fills h c v hmissed hi hnew _ =>
    have hthin := hsound.thin_new hnew
    obtain ⟨-, -, hun, hc, -⟩ := hsound.lv_cache_new hnew
    have htoggle := setPv_toggle (s := s) (v := v)
      (p := { s.pv v with queued := true, wait := (s.pv v).wait ++ [lb] }) rfl
    have hm := hs.marked.thin hsound hc (fun lb hlb => mem_outstanding_sched hlb) hthin
    refine .of_marked ht (hs.stamped.change rfl le_rfl hs.stamped.bstamp rfl hi) (hm.fill hun ?_)
      fun k _ hk => hk.keep rfl rfl rfl htoggle
    intro lb' hlb' heq
    have hpos := Multiset.count_pos.mpr (mem_outstanding_sched hlb')
    rw [heq, hsound.count_of_missed hmissed] at hpos
    exact absurd hpos (lt_irrefl 0)

theorem Recorded.start : Recorded (lv_cache_start s) := by
  have hframe : (lv_cache_start s).drains = s.drains ∧ (lv_cache_start s).sched = s.sched := by
    obtain heq | ⟨v, rest, -, -, heq⟩ := lv_cache_start_cases s
    · rw [heq]
      exact ⟨rfl, rfl⟩
    · rw [heq]
      exact (stampRecord_frame s).2.2.2.2
  refine .of_marked hs.charged.start hs.stamped.start (C := Covered s) ?_ fun k _ hk => hk.start
  rw [lv_cache_start_cache, hframe.1, hframe.2]
  exact hs.marked

theorem Recorded.scrub {minor : ℕ} (hi : s.inflight = none)
    (hscrub : lv_cache_scrub s minor = .ok (b, t)) : Recorded t := by
  have ht := hs.charged.scrub hscrub
  obtain ⟨hthin, -, -, -, hdrains, hsched, -⟩ := lv_cache_scrub_frame hs.charged.sound hscrub
  refine .of_marked ht (hs.stamped.scrub hs.charged.sound hi hscrub) (C := Covered s) ?_
    fun k _ hk => hk.scrub hs.charged.sound hscrub
  rw [hdrains, hsched]
  refine hs.marked.thin hs.charged.sound ht.sound (fun lb hlb => ?_) hthin
  rw [← hsched] at hlb
  exact mem_outstanding_sched hlb

theorem Recorded.cacheDone {error : Bool} (hd : cacheDone s error = .ok t) : Recorded t := by
  have ht := hs.charged.cacheDone hd
  obtain ⟨v, u, hv, hland, -, rfl, hu⟩ := cacheDone_cases hd
  have hidle : Charged { s with inflight := none } := hs.charged.congr rfl rfl rfl rfl
  have hquiet : Stamped { s with inflight := none } := hs.stamped.quiet (fun _ => id) rfl rfl rfl rfl rfl rfl
  -- The cleaning takes entries away, and changes nothing that is on the disk.
  obtain ⟨hcharged, hstamped, hthin, hdisk, hlast, hi, hdrains, hsched, htoggle⟩ : Charged u ∧
      Stamped u ∧ Thin u.cache s.cache ∧ u.disk = s.disk ∧ u.last = s.last ∧ u.inflight = none ∧
      u.drains = s.drains ∧ u.sched = s.sched ∧ ∀ v, (u.pv v).toggle = (s.pv v).toggle := by
    obtain rfl | ⟨-, b, hscrub⟩ := hu
    · exact ⟨hidle, hquiet, fun _ _ hh => ⟨hh, rfl⟩, rfl, rfl, rfl, rfl, rfl, fun _ => rfl⟩
    · exact ⟨hidle.scrub hscrub, hquiet.scrub hidle.sound rfl hscrub, lv_cache_scrub_frame hidle.sound hscrub⟩
  have hcovered (k : ℕ × ℕ) (hk : s.cache.Logs k) (hC : error = true → Covered s k) :
      Covered (u.takeWaiters v error) k := by
    cases error with
    | false => exact hs.stamped.covered hv (hland rfl) hk hdisk hi htoggle
    | true => exact (hC rfl).failed hv hdisk hlast hi htoggle
  refine .of_marked ht (hstamped.takeWaiters hi) (C := Covered (u.takeWaiters v error)) ?_
    fun _ _ => id
  have hlive (lb : Buf) (hlb : lb ∈ s.sched) : lb.key ∈ u.outstanding := by
    rw [← hsched] at hlb
    exact mem_outstanding_sched hlb
  have hthinned := hs.marked.thin hs.charged.sound hcharged.sound hlive hthin
  have hm : Marked (Covered (u.takeWaiters v error)) u.cache s.drains s.sched := by
    refine hthinned.mono (fun d hd lb hlb => ?_)
      fun k hk hC => hcovered k (hthin.logs hk) fun _ => hC
    rw [← hdrains] at hd
    exact hcharged.sound.logs (mem_outstanding_drains hd hlb)
  refine ⟨hm.frozen, hm.marked, fun d hd hok lb hlb => ?_, ?_⟩
  · rcases mem_append.mp hd with hd | hd
    · exact hm.draining d (hdrains ▸ hd) hok lb hlb
    · rw [mem_singleton.mp hd] at hok hlb
      have herror : error = false := hok
      have hlog : u.cache.Logs lb.key :=
        ht.sound.logs (mem_outstanding_drains (mem_append_right _ hd) (by
          rw [mem_singleton.mp hd]
          exact hlb))
      exact hcovered _ (hthin.logs hlog) fun h => by rw [herror] at h; cases h
  · change ∀ lb ∈ u.sched, _
    rw [hsched]
    exact hm.sched

theorem Recorded.drain {i : ℕ} (hd : drain s i = .ok (b, t)) : Recorded t := by
  have ht := hs.charged.drain hd
  obtain ⟨error, lb, rest, h, hi, hf, hd⟩ := drain_cases hs.charged.sound hd
  have hfrozen := hs.marked.frozen _ h (find_mem hf)
  have hmarked := hs.marked.marked _ h (find_mem hf)
  have hdrains (d : Bool × List Buf) (hd : d ∈ (s.advance i).drains) (hok : d.1 = false) (x : Buf)
      (hx : x ∈ d.2) : Covered s x.key := by
    obtain ⟨d', hd', hb, hsub⟩ := mem_advance hd
    exact hs.marked.draining d' hd' (hb ▸ hok) x (hsub x hx)
  have hlogs (e : Entry) (hkey : e.key = (s.cache.entry h).key) (k : ℕ × ℕ)
      (hk : (s.cache.setEntry h e).Logs k) : s.cache.Logs k := by
    obtain ⟨cls, x, hx, rfl⟩ := hk
    refine ⟨cls, x, hx, ?_⟩
    by_cases hxh : x = h
    · rw [hxh, setEntry_self, hkey]
    · rw [setEntry_of_ne _ _ _ hxh]
  cases hd with
  | scheduled =>
    have hcovered : Covered s (s.cache.entry h).key := by
      rw [find_key hf]
      exact hs.marked.draining _ (mem_of_getElem? hi) rfl lb (mem_cons_self ..)
    have hm := hs.marked.setEntry (h := h) (e := { s.cache.entry h with changing := false }) rfl
      (fun _ => rfl) (fun _ => hcovered) fun _ => rfl
    refine .of_marked ht (hs.stamped.congr (hlogs _ rfl) rfl rfl rfl rfl rfl rfl rfl fun _ => rfl)
      (C := Covered s) ⟨hm.frozen, hm.marked, hdrains, fun x hx h' hf' => ?_⟩
      fun k _ hk => hk.keep rfl rfl rfl fun _ => rfl
    rcases mem_append.mp hx with hx | hx
    · exact hm.sched x hx h' hf'
    · rw [mem_singleton.mp hx] at hf'
      have hsame : (s.cache.setEntry h { s.cache.entry h with changing := false }).find lb.key =
          s.cache.find lb.key := find_setEntry rfl
      cases hf.symm.trans (hsame.symm.trans hf')
      rw [setEntry_self]
  | @requeued v _ =>
    have htoggle := setPv_toggle (s := s.advance i) (v := v)
      (p := { s.pv v with queued := true, wait := (s.pv v).wait ++ [lb] }) rfl
    have hm := hs.marked.setEntry (h := h) (e := { s.cache.entry h with pvol := some v }) rfl
      hfrozen hmarked id
    exact .of_marked ht (hs.stamped.congr (hlogs _ rfl) rfl rfl rfl rfl rfl rfl rfl htoggle)
      (C := Covered s) ⟨hm.frozen, hm.marked, hdrains, hm.sched⟩
      fun k _ hk => hk.keep rfl rfl rfl htoggle
  | @discharged e _ he _ =>
    have hm := hs.marked.setEntry (h := h) (e := e) (by rw [he]; rfl)
      (by rw [he]; exact hfrozen) (by rw [he]; exact hmarked) (by rw [he]; exact id)
    exact .of_marked ht
      (hs.stamped.congr (hlogs e (by rw [he]; rfl)) rfl rfl rfl rfl rfl rfl rfl fun _ => rfl)
      (C := Covered s) ⟨hm.frozen, hm.marked, hdrains, hm.sched⟩
      fun k _ hk => hk.keep rfl rfl rfl fun _ => rfl
  | @removed e c _ he hzero hrem =>
    have hm := hs.marked.setEntry (h := h) (e := e) (by rw [he]; rfl)
      (by rw [he]; exact hfrozen) (by rw [he]; exact hmarked) (by rw [he]; exact id)
    have hsound := hs.charged.discharge hi hf he
    have hfree : Sound { s.cache.setEntry h e with free := incFree s.cache.free }
        (s.advance i).outstanding := hsound.congr rfl fun _ => ⟨rfl, rfl⟩
    have hthin : Thin (c.useLru h) (s.cache.setEntry h e) := by
      refine fun cls x hx => (thin_useLru c h).trans (hfree.thin_remove (h := h) ?_ ?_) cls x hx
      · change ((s.cache.setEntry h e).entry h).iocnt = 0
        rw [setEntry_self]
        exact hzero
      · change lv_cache_remove _ (MWC_THASH ((s.cache.setEntry h e).entry h).ltg) h = _
        have hltg : e.ltg = lb.key.2 := (congrArg Entry.ltg he).trans (congrArg Prod.snd (find_key hf))
        rw [setEntry_self, ← hrem, hltg]
    have hmthin := hm.thin hsound ht.sound (fun x hx => mem_outstanding_sched hx) hthin
    exact .of_marked ht (hs.stamped.congr (fun k hk => hlogs e (by rw [he]; rfl) k (hthin.logs hk))
        rfl rfl rfl rfl rfl rfl rfl fun _ => rfl)
      (C := Covered s) ⟨hmthin.frozen, hmthin.marked, hdrains, hmthin.sched⟩
      fun k _ hk => hk.keep rfl rfl rfl fun _ => rfl

theorem Recorded.complete {vgsaFailed : Bool} (hc : complete s lb vgsaFailed = .ok t) : Recorded t := by
  have ht := hs.charged.complete hc
  obtain ⟨hmem, h, e, hf, he, rfl⟩ := complete_cases hs.charged.sound hc
  have hchanging := hs.marked.sched lb hmem h hf
  have hkey : e.key = (s.cache.entry h).key := by
    rw [he]
    rfl
  have hm := hs.marked.setEntry hkey (fun _ => by rw [he]; exact hchanging)
    (fun _ => by rw [hkey]; exact hs.marked.marked _ h (find_mem hf) hchanging)
    (fun _ => by rw [he]; exact hchanging)
  refine .of_marked ht (hs.stamped.congr (fun k hk => ?_) rfl rfl rfl rfl rfl rfl rfl fun _ => rfl)
    (C := Covered s) (hm.less rfl rfl hm.draining fun x hx => mem_of_mem_erase hx)
    fun k _ hk => hk.keep rfl rfl rfl fun _ => rfl
  obtain ⟨cls, x, hx, rfl⟩ := hk
  refine ⟨cls, x, hx, ?_⟩
  by_cases hxh : x = h
  · rw [hxh, setEntry_self, hkey]
  · rw [setEntry_of_ne _ _ _ hxh]

theorem Recorded.step {i : Event} {f : Option Buf} (hroom : RoomFor s i)
    (hstep : stepFails s i = .ok (f, t)) : Recorded t := by
  have ht := hs.charged.step hroom hstep
  have hsame (u : Volgrp) (hu : Charged u) (hcache : u.cache = s.cache) (hdisk : u.disk = s.disk)
      (hclock : u.clock = s.clock) (hbstamp : u.bstamp = s.bstamp) (hestamp : u.estamp = s.estamp)
      (hchanged : u.changed = s.changed) (hi : u.inflight = s.inflight)
      (hlanded : u.landed = s.landed) (hlast : u.last = s.last) (hdrains : u.drains = s.drains)
      (hsched : u.sched = s.sched) (htoggle : ∀ v, (u.pv v).toggle = (s.pv v).toggle) :
      Recorded u := by
    refine .of_marked hu (hs.stamped.congr (fun k => by rw [hcache]; exact id) hdisk hclock hbstamp
      hestamp hchanged hi hlanded htoggle) (C := Covered s) ?_ fun k _ hk =>
        hk.keep hdisk hlast hi htoggle
    rw [hcache, hdrains, hsched]
    exact hs.marked
  cases i with
  | submit lb =>
    obtain ⟨-, b, -, hc⟩ := submit_cases hs.charged.sound hstep
    exact hs.checked hc ht
  | start =>
    cases hstep
    exact hs.start
  | tear =>
    obtain ⟨u, hu, hf⟩ := map_eq_ok hstep
    cases hf
    refine .of_marked ht (hs.stamped.tear hu) (C := Covered s) ?_ fun k _ hk =>
      hk.overwrite hu fun r' hr' => by cases hr'
    obtain ⟨v, -, rfl⟩ := overwrite_cases hu
    exact hs.marked
  | land =>
    obtain ⟨u, hu, hf⟩ := map_eq_ok hstep
    cases hf
    have hcache : t.cache = s.cache := by
      obtain ⟨v, -, rfl⟩ := overwrite_cases hu
      rfl
    refine .of_marked ht (hs.stamped.land hu) (C := Covered s) ?_ fun k hk hC =>
      hC.overwrite hu fun r' hr' => by
        cases hr'
        exact record_has (hcache ▸ hk)
    obtain ⟨v, -, rfl⟩ := overwrite_cases hu
    exact hs.marked
  | cacheDone error =>
    obtain ⟨u, hu, hf⟩ := map_eq_ok hstep
    cases hf
    exact hs.cacheDone hu
  | drain i =>
    obtain ⟨⟨b, u⟩, hu, hf⟩ := map_eq_ok hstep
    cases hf
    exact hs.drain hu
  | complete lb vgsaFailed =>
    obtain ⟨u, hu, hf⟩ := map_eq_ok hstep
    cases hf
    exact hs.complete hu
  | take =>
    obtain ⟨-, rfl⟩ := take_cases hstep
    exact hsame _ ht rfl rfl rfl rfl rfl rfl rfl rfl rfl rfl rfl fun _ => rfl
  | retry =>
    obtain ⟨lb, rest, b, hr, -, hc⟩ := retry_cases hs.charged.sound hstep
    have hrest : Charged { s with retrying := rest } :=
      ⟨hs.charged.sound, hs.charged.waiting, fun x hx => hs.charged.retrying x (hr ▸ mem_cons_of_mem _ hx)⟩
    exact (hsame _ hrest rfl rfl rfl rfl rfl rfl rfl rfl rfl rfl rfl fun _ => rfl).checked hc ht
  | clean minor =>
    obtain ⟨-, -, rfl | ⟨hi, b, u, hscrub, rfl⟩⟩ := clean_cases hstep
    · exact hsame _ ht rfl rfl rfl rfl rfl rfl rfl rfl rfl rfl rfl fun _ => rfl
    · split
      · exact (hs.scrub hi hscrub).start
      · exact hs.scrub hi hscrub
  | env missing maxmirrors copies =>
    cases hstep
    exact hsame _ ht rfl rfl rfl rfl rfl rfl rfl rfl rfl rfl rfl fun _ => rfl

end

theorem Activated.recorded (hs : Activated s) : Recorded s := by
  have hlogs (k : ℕ × ℕ) : ¬s.cache.Logs k := by
    rintro ⟨cls, h, hh, -⟩
    rw [hs.cache] at hh
    exact absurd hh not_mem_nil
  refine .of_marked hs.charged ⟨hs.disk, hs.bstamp, ?_, hs.estamp, ?_, ?_⟩ (C := fun _ => False)
    ⟨?_, ?_, ?_, ?_⟩ fun k hk => absurd hk (hlogs k)
  · rw [hs.inflight]
    exact fun h => absurd h Bool.false_ne_true
  · exact fun _ _ _ _ _ _ k hk => absurd hk (hlogs k)
  · rw [hs.inflight]
    exact fun v hv => by cases hv
  · exact fun cls h hh => absurd ⟨cls, h, hh, rfl⟩ (hlogs (s.cache.entry h).key)
  · exact fun cls h hh => absurd ⟨cls, h, hh, rfl⟩ (hlogs (s.cache.entry h).key)
  · rw [hs.drains]
    exact fun d hd => absurd hd not_mem_nil
  · rw [hs.sched]
    exact fun lb hlb => absurd hlb not_mem_nil

end Steps

section Failures

/-- A copy of the extent is on a volume that is there. -/
def HasVolume (s : Volgrp) (lb : Buf) : Prop :=
  ∃ i ≤ s.maxmirrors lb.minor, ∃ v, (s.copy lb i).pvnum = some v ∧ (s.pv v).missing = false

/-- The copy with the lowest number is on a volume that is there. -/
def LowestPresent (s : Volgrp) (lb : Buf) : Prop :=
  ∃ i ≤ s.maxmirrors lb.minor, ∃ v, (s.copy lb i).pvnum = some v ∧ (s.pv v).missing = false ∧
    ∀ j < i, (s.copy lb j).pvnum = none

/-- A copy is on a volume that is there, whose record other requests wait for. -/
def WaitedFor (s : Volgrp) (lb : Buf) : Prop :=
  ∃ i ≤ s.maxmirrors lb.minor, ∃ v, (s.copy lb i).pvnum = some v ∧ (s.pv v).missing = false ∧
    (s.copy lb i).nomwc = false ∧ (s.pv v).wait ≠ []

/-- If there is a volume for the record, then the one with the lowest number is, or one that others
wait for. -/
def Placeable (s : Volgrp) (lb : Buf) : Prop := HasVolume s lb → LowestPresent s lb ∨ WaitedFor s lb

variable {n i : ℕ} {pv : Option Pvnum}

theorem pickPv_of_waiters (hi : i < n) (hv : (s.copy lb i).pvnum = some v) (hpresent : (s.pv v).missing = false)
    (hmwc : (s.copy lb i).nomwc = false) (hwait : (s.pv v).wait ≠ []) :
    ∃ u, pickPv s lb n pv = some u ∧ (s.pv u).missing = false := by
  induction n generalizing pv with
  | zero => cases hi
  | succ n ih =>
    unfold pickPv
    by_cases hin : i = n
    · subst hin
      rw [hv]
      simp only [hpresent, Bool.false_eq_true, if_false, hmwc]
      rw [if_pos hwait]
      exact ⟨v, rfl, hpresent⟩
    · have hlt : i < n := by omega
      split
      · exact ih hlt
      split
      · exact ih hlt
      rename_i hmissing
      split
      · exact ih hlt
      split
      · exact ⟨_, rfl, by simpa using hmissing⟩
      · exact ih hlt

theorem pickPv_of_none (hnone : ∀ j < n, (s.copy lb j).pvnum = none) : pickPv s lb n pv = pv := by
  induction n with
  | zero => rfl
  | succ n ih =>
    unfold pickPv
    rw [hnone n (Nat.lt_succ_self n)]
    exact ih fun j hj => hnone j (by omega)

theorem pickPv_of_lowest (hi : i < n) (hv : (s.copy lb i).pvnum = some v) (hpresent : (s.pv v).missing = false)
    (hnone : ∀ j < i, (s.copy lb j).pvnum = none) : ∃ u, pickPv s lb n pv = some u ∧ (s.pv u).missing = false := by
  induction n generalizing pv with
  | zero => cases hi
  | succ n ih =>
    unfold pickPv
    by_cases hin : i = n
    · subst hin
      rw [hv]
      simp only [hpresent, Bool.false_eq_true, if_false, pickPv_of_none hnone]
      refine ⟨v, ?_, hpresent⟩
      split
      · rfl
      · split <;> rfl
    · have hlt : i < n := by omega
      split
      · exact ih hlt
      split
      · exact ih hlt
      rename_i hmissing
      split
      · exact ih hlt
      split
      · exact ⟨_, rfl, by simpa using hmissing⟩
      · exact ih hlt

theorem Placeable.missing (hp : Placeable s lb) (htarget : s.target lb = none)
    (hi : i ≤ s.maxmirrors lb.minor) (hv : (s.copy lb i).pvnum = some v) : (s.pv v).missing = true := by
  by_contra hmissing
  have hfound : ∃ u, pickPv s lb (s.maxmirrors lb.minor + 1) none = some u ∧
      (s.pv u).missing = false := by
    obtain ⟨j, hj, u, hu, hpresent, hnone⟩ | ⟨j, hj, u, hu, hpresent, hmwc, hwait⟩ :=
      hp ⟨i, hi, v, hv, by simpa using hmissing⟩
    · exact pickPv_of_lowest (by omega) hu hpresent hnone
    · exact pickPv_of_waiters (by omega) hu hpresent hmwc hwait
  obtain ⟨u, hu, hpresent⟩ := hfound
  unfold Volgrp.target at htarget
  rw [hu, Option.filter_some, hpresent] at htarget
  cases htarget

/-- The steps in which the record can go where it should: no count reaches the end of its range,
and a volume is found for a request that needs one if there is one. -/
def Loggable (s : Volgrp) : Event → Prop
  | .submit lb => Roomy s lb ∧ (Missed s.cache lb.key → s.inflight = none → s.cache.free ≠ 0 → Placeable s lb)
  | .retry => ∀ lb ∈ s.retrying.head?, Roomy s lb ∧
      (Missed s.cache lb.key → s.inflight = none → s.cache.free ≠ 0 → Placeable s lb)
  | .drain i => ∀ lb rest, s.drains[i]? = some (true, lb :: rest) → Placeable s lb
  | _ => True

theorem Loggable.room {i : Event} (hok : Loggable s i) : RoomFor s i := by
  cases i with
  | submit lb => exact hok.1
  | retry => exact fun lb hlb => (hok lb hlb).1
  | _ => trivial

theorem Checked.missing (hc : Checked s lb true t)
    (hp : Missed s.cache lb.key → s.inflight = none → s.cache.free ≠ 0 → Placeable s lb)
    (hi : i ≤ s.maxmirrors lb.minor) (hv : (s.copy lb i).pvnum = some v) : (s.pv v).missing = true := by
  cases hc with
  | fails hm hin hnew htarget =>
    exact (hp hm hin (free_of_lv_cache_new hnew)).missing htarget hi hv

theorem Recorded.fails {i : Event} (hs : Recorded s) (hok : Loggable s i)
    (hstep : stepFails s i = .ok (some lb, t)) {j : ℕ} (hj : j ≤ s.maxmirrors lb.minor)
    (hv : (s.copy lb j).pvnum = some v) : (s.pv v).missing = true := by
  cases i with
  | submit x =>
    obtain ⟨-, b, hf, hc⟩ := submit_cases hs.charged.sound hstep
    cases b with
    | false => cases hf
    | true =>
      cases hf
      exact hc.missing hok.2 hj hv
  | retry =>
    obtain ⟨x, rest, b, hr, hf, hc⟩ := retry_cases hs.charged.sound hstep
    cases b with
    | false => cases hf
    | true =>
      cases hf
      exact hc.missing (hok lb (by rw [hr]; rfl)).2 hj hv
  | drain i =>
    obtain ⟨⟨b, u⟩, hu, hf⟩ := map_eq_ok hstep
    obtain ⟨error, x, rest, h, hi, -, hd⟩ := drain_cases hs.charged.sound hu
    simp only [hi] at hf
    cases hd with
    | scheduled => cases hf
    | requeued _ => cases hf
    | discharged htarget _ _ =>
      cases hf
      exact (hok lb rest hi).missing htarget hj hv
    | removed htarget _ _ _ =>
      cases hf
      exact (hok lb rest hi).missing htarget hj hv
  | take =>
    obtain ⟨hf, -⟩ := take_cases hstep
    cases hf
  | clean minor =>
    obtain ⟨-, hf, -⟩ := clean_cases hstep
    cases hf
  | start => cases hstep
  | env missing maxmirrors copies => cases hstep
  | tear =>
    obtain ⟨u, -, hf⟩ := map_eq_ok hstep
    cases hf
  | land =>
    obtain ⟨u, -, hf⟩ := map_eq_ok hstep
    cases hf
  | cacheDone error =>
    obtain ⟨u, -, hf⟩ := map_eq_ok hstep
    cases hf
  | complete x vgsaFailed =>
    obtain ⟨u, -, hf⟩ := map_eq_ok hstep
    cases hf

end Failures

/-- A complete record on the disk, and none is newer. -/
structure Newest (s : Volgrp) (r : Rec) : Prop where
  disk : ∃ v b, s.disk v b = some r
  complete : r.bstamp = r.estamp
  newest : ∀ v b r', s.disk v b = some r' → r'.bstamp = r'.estamp → r'.bstamp ≤ r.bstamp

theorem Stamped.exists_newest (hs : Stamped s) {b : Bool} {r : Rec} (hr : s.disk v b = some r)
    (hcomplete : r.bstamp = r.estamp) : ∃ r, Newest s r := by
  induction hn : s.clock - r.bstamp using Nat.strong_induction_on generalizing v b r with
  | _ n ih =>
    by_cases hnewest : ∀ v b r', s.disk v b = some r' → r'.bstamp = r'.estamp → r'.bstamp ≤ r.bstamp
    · exact ⟨r, ⟨v, b, hr⟩, hcomplete, hnewest⟩
    · simp only [not_forall, not_le] at hnewest
      obtain ⟨v', b', r', hr', hcomplete', hlt⟩ := hnewest
      have hle := hs.disk v' b' r' hr'
      exact ih (s.clock - r'.bstamp) (by omega) hr' hcomplete' rfl

theorem Covered.newest (hc : Covered s k) (hs : Stamped s) : (∃ r, Newest s r) ∧ ∀ r, Newest s r → r.Has k := by
  obtain ⟨u, r, -, hr, hcomplete, hnewer⟩ := hc
  refine ⟨hs.exists_newest hr hcomplete, fun r' hr' => ?_⟩
  obtain ⟨v, b, hdisk⟩ := hr'.disk
  exact hnewer v b r' hdisk (hr'.newest u _ r hr hcomplete)

theorem Recorded.covered (hs : Recorded s) (hlb : lb ∈ s.sched) : Covered s lb.key := by
  obtain ⟨h, hf, -⟩ := hs.charged.sound.find_of_mem (mem_outstanding_sched hlb)
  have hm := hs.marked.marked _ h (find_mem hf) (hs.marked.sched lb hlb h hf)
  rwa [find_key hf] at hm

/-- In every run whose steps meet the conditions: what is scheduled is in the newest complete
record, and a request fails only when its extent has no copy on a volume that is there. -/
theorem logged_writes (hs : (mwcSystem.restrict Loggable).Reachable s) :
    (∀ lb ∈ s.sched, (∃ r, Newest s r) ∧ ∀ r, Newest s r → r.Has lb.key) ∧
      ∀ i lb t, Loggable s i → stepFails s i = .ok (some lb, t) →
        ∀ j ≤ s.maxmirrors lb.minor, ∀ v, (s.copy lb j).pvnum = some v →
          (s.pv v).missing = true := by
  have hrec : Recorded s := by
    refine hs.invariant (I := Recorded) (fun s hinit => Activated.recorded hinit) ?_
    rintro s i t - hrec ⟨hok, hstep⟩
    obtain ⟨⟨f, u⟩, hu, rfl⟩ := map_eq_ok hstep
    exact hrec.step hok.room hu
  exact ⟨fun lb hlb => (hrec.covered hlb).newest hrec.stamped,
    fun i lb t hok hstep j hj v hv => hrec.fails hok hstep hj hv⟩

theorem reachable_logged : ∃ s, (mwcSystem.restrict Loggable).Reachable s ∧ s.sched = [firstWrite] := by
  have hstart : (mwcSystem.restrict Loggable).Reachable mirrored := .init activated_mirrored
  have hok : Loggable mirrored (.submit firstWrite) := by
    refine ⟨fun h hf => ?_, fun _ _ _ _ => .inl ⟨0, Nat.zero_le _, 0, rfl, rfl, fun j hj => ?_⟩⟩
    · cases hf
    · cases hj
  exact ⟨_, .step (i := .drain 0) (.step (i := .cacheDone false) (.step (i := .land)
    (.step (i := .start) (.step (i := .submit firstWrite) hstart ⟨hok, rfl⟩) ⟨trivial, rfl⟩)
    ⟨trivial, rfl⟩) ⟨trivial, rfl⟩) ⟨(fun lb rest h => by cases h), rfl⟩, rfl⟩

/-- In a run whose steps meet the conditions: the newest record has the first write. -/
theorem logged_writes_first : ∃ s, s.sched = [firstWrite] ∧
    (∃ r, Newest s r) ∧ ∀ r, Newest s r → r.Has firstWrite.key := by
  obtain ⟨s, hreach, hsched⟩ := reachable_logged
  exact ⟨s, hsched, (logged_writes hreach).1 firstWrite (by rw [hsched]; exact mem_cons_self ..)⟩

/-- The two copies, and the volume of the first one is missing. -/
def degraded : Volgrp := { mirrored with pv := fun v => ⟨decide (v = 0), false, false, [], 0⟩ }

theorem activated_degraded : Activated degraded := { activated_mirrored with wait := fun _ => rfl }

/-- A write fails although the volume of its second copy is there. -/
theorem logged_not_always : ¬∀ s, mwcSystem.Reachable s →
    (∀ lb ∈ s.sched, (∃ r, Newest s r) ∧ ∀ r, Newest s r → r.Has lb.key) ∧
      ∀ i lb t, stepFails s i = .ok (some lb, t) →
        ∀ j ≤ s.maxmirrors lb.minor, ∀ v, (s.copy lb j).pvnum = some v →
          (s.pv v).missing = true := by
  intro hall
  have hfails := (hall degraded (.init activated_degraded)).2 (.submit firstWrite) firstWrite _ rfl
  exact absurd (hfails 1 le_rfl 1 rfl) (by decide)

end Osf1.Mwc
