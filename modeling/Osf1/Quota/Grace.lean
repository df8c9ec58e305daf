import Osf1.Computation.Transition
import Osf1.Quota.Model

/-!
# The grace period

The time of a soft limit is set when a count reaches it, so that an allocation is refused only after
the grace period.  It is not set when an allocation reaches the limit exactly, or is not checked.
-/

set_option autoImplicit false

namespace Osf1.Quota

open Function List

open Osf1.Computation

/-- A usage is at or above its soft limit. -/
def Usage.Above (u : Usage) : Prop := u.softlimit ≠ 0 ∧ u.softlimit ≤ u.cur

/-- One that comes to be at the soft limit gets its time, and one that stays there keeps it. -/
def Watched (sec grace : ℤ) (u u' : Usage) : Prop := u'.Above → (u.Above ∧ u.time ≤ u'.time) ∨ sec + grace ≤ u'.time

section Watched

variable {u u' : Usage} {change sec grace : ℤ} {own : Bool}

theorem watched_refl : Watched sec grace u u := fun h => .inl ⟨h, le_rfl⟩

theorem int32_of_range {x : ℤ} (h : -2 ^ 31 ≤ x) (h' : x < 2 ^ 31) : int32 x = x := by
  unfold int32
  rw [Int.bmod_def]
  split <;> omega

theorem exceeds_ne_zero {count limit : u_int} (h : exceeds count limit) : limit ≠ 0 := by
  rcases h with ⟨hone, -⟩ | ⟨-, hne⟩
  · rw [hone]
    decide
  · exact hne

theorem eq_of_not_exceeds {count limit : u_int} (hle : limit ≤ count) (hne : limit ≠ 0)
    (h : ¬exceeds count limit) : count = limit ∧ limit ≠ 1 := by
  unfold exceeds at h
  rw [not_or] at h
  have hlt : ¬limit < count := fun hlt => h.2 ⟨hlt, hne⟩
  have heq : count = limit := BitVec.le_antisymm (BitVec.not_lt.mp hlt) hle
  exact ⟨heq, fun hone => h.1 ⟨hone, heq ▸ hne⟩⟩

theorem watched_check (hrange : -2 ^ 31 ≤ sec + grace) (hrange' : sec + grace < 2 ^ 31)
    (hfair : ¬(u.cur < u.softlimit ∧ u.plus change = u.softlimit ∧ u.softlimit ≠ 1))
    (h : u.check change sec grace own = (none, u')) : Watched sec grace u { u' with cur := u.plus change } := by
  unfold Usage.check at h
  split at h
  · cases h
  split at h
  · rename_i hsoft
    split at h
    · cases h
      refine fun _ => .inr ?_
      rw [int32_of_range hrange hrange']
    split at h
    · cases h
    · rename_i hcur htime
      cases h
      exact fun _ => .inl ⟨⟨exceeds_ne_zero hsoft, BitVec.not_lt.mp hcur⟩, le_rfl⟩
  · rename_i hsoft
    cases h
    rintro ⟨hne, hle⟩
    obtain ⟨heq, hone⟩ := eq_of_not_exceeds hle hne hsoft
    refine .inl ⟨⟨hne, ?_⟩, le_rfl⟩
    by_contra hcur
    exact hfair ⟨BitVec.not_le.mp hcur, heq, hone⟩

theorem watched_force (hfair : ¬(u.cur < u.softlimit ∧ u.softlimit ≤ u.plus change)) :
    Watched sec grace u { u with cur := u.plus change } := by
  rintro ⟨hne, hle⟩
  refine .inl ⟨⟨hne, ?_⟩, le_rfl⟩
  by_contra hcur
  exact hfair ⟨BitVec.not_le.mp hcur, hle⟩

theorem release_le (hneg : change < 0) (hrange : -2 ^ 31 ≤ change) : (u.release change).cur ≤ u.cur := by
  unfold Usage.release Usage.plus
  split
  · rename_i hpos
    rw [BitVec.toInt_eq_toNat_cond] at hpos
    rw [BitVec.le_def, BitVec.toNat_add, BitVec.toNat_ofInt] at *
    split at hpos <;> omega
  · exact BitVec.le_def.mpr (Nat.zero_le _)

theorem watched_release (hneg : change < 0) (hrange : -2 ^ 31 ≤ change) :
    Watched sec grace u (u.release change) := by
  rintro ⟨hne, hle⟩
  exact .inl ⟨⟨hne, BitVec.le_trans hle (release_le hneg hrange)⟩, le_rfl⟩

/-- An allocation that has been backed out. -/
def Tried (u u' : Usage) : Prop :=
  u'.cur = u.cur ∧ u'.softlimit = u.softlimit ∧ (u'.time = u.time ∨ u.cur < u.softlimit)

theorem Tried.watched (h : Tried u u') : Watched sec grace u u' := by
  obtain ⟨hcur, hsoft, htime⟩ := h
  rintro ⟨hne, hle⟩
  rw [hsoft] at hne hle
  rw [hcur] at hle
  refine .inl ⟨⟨hne, hle⟩, ?_⟩
  rcases htime with htime | hlt
  · rw [htime]
  · exact absurd hle (BitVec.not_le.mpr hlt)

theorem watched_setLimits {newlim : Usage} {root : Bool} (hrange : -2 ^ 31 ≤ sec + grace)
    (hrange' : sec + grace < 2 ^ 31) (hroot : root = true → u.Above → u.time ≤ newlim.time) :
    Watched sec grace u (u.setLimits sec newlim root grace) := by
  intro habove
  obtain ⟨hne, hle⟩ : newlim.softlimit ≠ 0 ∧ newlim.softlimit ≤ u.cur := habove
  unfold Usage.setLimits
  simp only
  by_cases hreset : u.softlimit = 0 ∨ u.cur < u.softlimit
  · right
    rw [if_pos ⟨hne, hle, hreset⟩, int32_of_range hrange hrange']
  · left
    have hu : u.Above := by
      rw [not_or] at hreset
      exact ⟨hreset.1, BitVec.not_lt.mp hreset.2⟩
    rw [if_neg fun h => hreset h.2.2]
    refine ⟨hu, ?_⟩
    cases root with
    | true => exact hroot rfl hu
    | false => exact le_rfl

theorem watched_setUse {cur : u_int} (hrange : -2 ^ 31 ≤ sec + grace)
    (hrange' : sec + grace < 2 ^ 31) : Watched sec grace u (u.setUse sec cur grace) := by
  intro habove
  obtain ⟨hne, hle⟩ : u.softlimit ≠ 0 ∧ u.softlimit ≤ cur := habove
  unfold Usage.setUse
  by_cases hcur : u.cur < u.softlimit
  · right
    rw [if_pos ⟨hne, hcur, hle⟩, int32_of_range hrange hrange']
  · left
    rw [if_neg fun h => hcur h.2.1]
    exact ⟨⟨hne, BitVec.not_lt.mp hcur⟩, le_rfl⟩

end Watched

section Loop

variable {m : Mount} {sec : ℤ} {cred : Cred} {r : Resource} {ip : Inode} {change : ℤ} {force : Bool}
  {t t' : Table} {is done : List QuotaType} {d : QuotaType × u_int}

theorem setUsage_other {d' : QuotaType × u_int} {u : Usage} (h : d ≠ d') : setUsage t d' r u d = t d :=
  update_of_ne h _ _

theorem backOut_other (h : d.1 ∉ is) : backOut r ip change is t d = t d := by
  induction is generalizing t with
  | nil => rfl
  | cons i is ih =>
    rw [mem_cons, not_or] at h
    rw [backOut]
    cases ip.i_dquot i with
    | none => exact ih h.2
    | some id => exact (ih h.2).trans (setUsage_other fun heq => h.1 (congrArg Prod.fst heq))

theorem backOut_local (h : t' d = t d) : backOut r ip change is t' d = backOut r ip change is t d := by
  induction is generalizing t t' with
  | nil => exact h
  | cons i is ih =>
    rw [backOut, backOut]
    cases ip.i_dquot i with
    | none => exact ih h
    | some id =>
      refine ih ?_
      by_cases hd : d = (i, id)
      · subst hd
        simp only [setUsage, update_self, h]
      · rw [setUsage_other hd, setUsage_other hd, h]

theorem usage_setUsage {u : Usage} : (setUsage t d r u d).usage r = u := by
  unfold setUsage
  simp only [update_self]

theorem usage_setUsage_ne {r' : Resource} {u : Usage} (h : r' ≠ r) :
    (setUsage t d r u d).usage r' = (t d).usage r' := by
  unfold setUsage
  simp only [update_self, update_of_ne h]

theorem check_tried {u : Usage} {grace : ℤ} {own : Bool} : Tried u (u.check change sec grace own).2 := by
  have hwarn : Tried u (u.warn own) := by
    cases own <;> exact ⟨rfl, rfl, .inl rfl⟩
  unfold Usage.check
  split
  · exact hwarn
  split
  · split
    · rename_i hcur
      exact ⟨rfl, rfl, .inr hcur⟩
    split
    · exact hwarn
    · exact ⟨rfl, rfl, .inl rfl⟩
  · exact ⟨rfl, rfl, .inl rfl⟩

theorem tried_setUsage {u : Usage} (h : Tried ((t d).usage r) u) (r' : Resource) :
    Tried ((t d).usage r') ((setUsage t d r u d).usage r') := by
  by_cases hr : r' = r
  · subst hr
    rw [usage_setUsage]
    exact h
  · rw [usage_setUsage_ne hr]
    exact ⟨rfl, rfl, .inl rfl⟩

/-- A charge that is backed out. -/
theorem Charges.tried {grace : ℤ} {own unchecked : Bool} {u u' : Usage}
    (h : Charges change sec grace own unchecked u u') (hneg : ¬change < 0) : Tried u { u' with cur := u'.plus (-change) } := by
  have hcur : u'.plus (-change) = u.cur := by
    show u'.cur + _ = _
    rw [h.cur, moved, if_neg hneg]
    exact plus_neg
  cases h with
  | release h => exact absurd h hneg
  | force => exact ⟨hcur, rfl, .inl rfl⟩
  | check _ _ hcheck =>
    have htried := @check_tried sec change u grace own
    rw [hcheck] at htried
    exact ⟨hcur, htried.2⟩

theorem chkLoop_tried {e : ℕ} (hdisj : ∀ i ∈ is, i ∉ done) (his : is.Nodup)
    (h : chkLoop m sec cred r ip change force is done t = (some e, t')) :
    (d.1 ∉ done → ∀ r', Tried ((t d).usage r') ((t' d).usage r')) ∧
      (d.1 ∈ done → t' d = backOut r ip change done t d) := by
  induction is generalizing done t with
  | nil => cases h
  | cons i is ih =>
    obtain ⟨hi, his⟩ := nodup_cons.mp his
    have hidone : i ∉ done := hdisj i (mem_cons_self ..)
    have hdisj' : ∀ j ∈ is, j ∉ i :: done := by
      intro j hj hmem
      rcases mem_cons.mp hmem with rfl | hmem
      · exact hi hj
      · exact hdisj j (mem_cons_of_mem _ hj) hmem
    have hneg := chkLoop_nonneg h
    cases hid : ip.i_dquot i with
    | none =>
      have hback : backOut r ip change (i :: done) t = backOut r ip change done t := by
        rw [backOut]
        simp only [hid]
      obtain ⟨hnot, hmem⟩ := ih hdisj' his (chkLoop_none hid ▸ h)
      rw [hback] at hmem
      refine ⟨fun hd r' => ?_, fun hd => hmem (mem_cons_of_mem _ hd)⟩
      by_cases hdi : d.1 = i
      · rw [hmem (hdi ▸ mem_cons_self ..), backOut_other hd]
        exact ⟨rfl, rfl, .inl rfl⟩
      · exact hnot (fun hmem => (mem_cons.mp hmem).elim hdi hd) r'
    | some id =>
      rcases chkLoop_some hid h with ⟨u, hu, hloop⟩ | ⟨e, u, -, rfl, hcheck⟩
      · -- One that has been charged, and is backed out at last.
        obtain ⟨hnot, hmem⟩ := ih hdisj' his hloop
        rw [backOut] at hmem
        simp only [hid] at hmem
        refine ⟨fun hd r' => ?_, fun hd => ?_⟩
        · by_cases hdi : d.1 = i
          · rw [hmem (hdi ▸ mem_cons_self ..), backOut_other hd]
            by_cases hdid : d = (i, id)
            · subst hdid
              rw [usage_setUsage]
              by_cases hr : r' = r
              · subst hr
                rw [usage_setUsage]
                exact hu.tried hneg
              · rw [usage_setUsage_ne hr, usage_setUsage_ne hr]
                exact ⟨rfl, rfl, .inl rfl⟩
            · rw [setUsage_other hdid, setUsage_other hdid]
              exact ⟨rfl, rfl, .inl rfl⟩
          · have htried := hnot (fun hmem => (mem_cons.mp hmem).elim hdi hd) r'
            rw [setUsage_other fun heq => hdi (congrArg Prod.fst heq)] at htried
            exact htried
        · have hne : d ≠ (i, id) := by
            rintro rfl
            exact hidone hd
          rw [hmem (mem_cons_of_mem _ hd)]
          refine backOut_local ?_
          rw [setUsage_other hne, setUsage_other hne]
      · have htried := @check_tried sec change ((t (i, id)).usage r) (m.um_time r i)
          (ip.i_uid.setWidth 32 == cred.cr_uid)
        rw [hcheck] at htried
        refine ⟨fun hd r' => ?_, fun hd => ?_⟩
        · rw [backOut_other hd]
          by_cases hdid : d = (i, id)
          · subst hdid
            exact tried_setUsage htried r'
          · rw [setUsage_other hdid]
            exact ⟨rfl, rfl, .inl rfl⟩
        · refine backOut_local (setUsage_other ?_)
          rintro rfl
          exact hidone hd

theorem chkLoop_usage (his : is.Nodup) (h : chkLoop m sec cred r ip change force is done t = (none, t')) :
    (d.1 ∈ is → ip.i_dquot d.1 = some d.2 → ∃ u, t' d = setUsage t d r u d ∧
      Charges change sec (m.um_time r d.1) (ip.i_uid.setWidth 32 == cred.cr_uid)
        (force || cred.escape) ((t d).usage r) u) ∧
      (¬(d.1 ∈ is ∧ ip.i_dquot d.1 = some d.2) → t' d = t d) := by
  induction is generalizing done t with
  | nil =>
    cases h
    exact ⟨fun hd => absurd hd not_mem_nil, fun _ => rfl⟩
  | cons i is ih =>
    obtain ⟨hi, his⟩ := nodup_cons.mp his
    cases hid : ip.i_dquot i with
    | none =>
      obtain ⟨hin, hout⟩ := ih his (chkLoop_none hid ▸ h)
      refine ⟨fun hd hattach => ?_, fun hd => hout fun hcond => hd ⟨mem_cons_of_mem _ hcond.1, hcond.2⟩⟩
      rcases mem_cons.mp hd with hdi | hd
      · rw [hdi, hid] at hattach
        cases hattach
      · exact hin hd hattach
    | some id =>
      obtain ⟨u, hu, hloop⟩ | ⟨e, u, hnone, -⟩ := chkLoop_some hid h
      · obtain ⟨hin, hout⟩ := ih his hloop
        by_cases hd : d = (i, id)
        · subst hd
          refine ⟨fun _ _ => ⟨u, ?_, hu⟩, fun hnot => absurd ⟨mem_cons_self .., hid⟩ hnot⟩
          exact hout fun hcond => hi hcond.1
        · rw [setUsage_other hd] at hin hout
          refine ⟨fun hmem hattach => ?_, fun hnot => hout fun hcond =>
            hnot ⟨mem_cons_of_mem _ hcond.1, hcond.2⟩⟩
          rcases mem_cons.mp hmem with hdi | hmem
          · rw [hdi, hid] at hattach
            exact absurd (Prod.ext hdi (Option.some.inj hattach).symm) hd
          · obtain ⟨u', hu', hcharge⟩ := hin hmem hattach
            refine ⟨u', ?_, hcharge⟩
            rw [hu']
            simp only [setUsage, update_self]
            rw [update_of_ne hd]
      · cases hnone

theorem chkLoop_refused {e : ℕ} (his : is.Nodup)
    (h : chkLoop m sec cred r ip change force is done t = (some e, t')) :
    ∃ i id, i ∈ is ∧ ip.i_dquot i = some id ∧
      (((t (i, id)).usage r).check change sec (m.um_time r i)
        (ip.i_uid.setWidth 32 == cred.cr_uid)).1 = some e := by
  induction is generalizing done t with
  | nil => cases h
  | cons i is ih =>
    obtain ⟨hi, his⟩ := nodup_cons.mp his
    cases hid : ip.i_dquot i with
    | none =>
      obtain ⟨j, id, hj, hjd, hcheck⟩ := ih his (chkLoop_none hid ▸ h)
      exact ⟨j, id, mem_cons_of_mem _ hj, hjd, hcheck⟩
    | some id =>
      rcases chkLoop_some hid h with ⟨u, -, hloop⟩ | ⟨e', u, herr, -, hcheck⟩
      · -- The dquots that come later have not been touched.
        obtain ⟨j, jd, hj, hjd, hcheck⟩ := ih his hloop
        have hne : (j, jd) ≠ (i, id) := by
          rintro heq
          cases heq
          exact hi hj
        rw [setUsage_other hne] at hcheck
        exact ⟨j, jd, mem_cons_of_mem _ hj, hjd, hcheck⟩
      · exact ⟨i, id, mem_cons_self .., hid, by rw [hcheck, herr]⟩

end Loop

section Run

/-- Dquots, and the time. -/
structure State where
  now : ℤ
  table : Table

/-- What happens to dquots.  `load` is what is initialized when one is read from the quota file. -/
inductive Event
  | tick (now : ℤ)
  | chk (r : Resource) (ip : Inode) (change : ℤ) (cred : Cred) (force : Bool)
  | load (d : QuotaType × u_int)
  | setquota (d : QuotaType × u_int) (newlim : Resource → Usage)
  | setuse (d : QuotaType × u_int) (usage : Resource → u_int)

/-- The change of a charge is an `int` with all callers.  Nothing has been charged at first. -/
def quotas (m : Mount) : System State Event where
  init s := ∀ d r, count s.table d r = 0
  step s e s' :=
    match e with
    | .tick now => s.now ≤ now ∧ s' = { s with now := now }
    | .chk r ip change cred force => -2 ^ 31 ≤ change ∧ change < 2 ^ 31 ∧
        s' = { s with table := (chk m s.now cred r ip change force s.table).2 }
    | .load d => d.2 ≠ 0 ∧
        s' = { s with
          table := update s.table d ((s.table d).initTimes m s.now d.1) }
    | .setquota d newlim => s' = { s with table := setquota m s.now d newlim s.table }
    | .setuse d usage => s' = { s with table := setuse m s.now d usage s.table }

/-- The time that is computed for a limit is an `int`. -/
def InTime (m : Mount) (s : State) : Prop := ∀ r i, -2 ^ 31 ≤ s.now + m.um_time r i ∧ s.now + m.um_time r i < 2 ^ 31

/-- No allocation takes a count from below its soft limit exactly to it, unless that is 1, and none
that is not checked takes one there or beyond. -/
def FairCharge (u : Usage) (change : ℤ) (unchecked : Bool) : Prop :=
  0 ≤ change → u.cur < u.softlimit → u.softlimit ≤ u.plus change →
    unchecked = false ∧ (u.plus change = u.softlimit → u.softlimit = 1)

def Event.Fair (m : Mount) (s : State) (e : Event) : Prop :=
  InTime m s ∧
    match e with
    | .chk r ip change cred force => ∀ i id, ip.i_dquot i = some id →
        FairCharge ((s.table (i, id)).usage r) change (force || cred.escape)
    | .setquota d newlim => d.2 = 0 → ∀ r, ((s.table d).usage r).Above →
        ((s.table d).usage r).time ≤ (newlim r).time
    | _ => True

variable {m : Mount} {s s' : State} {d : QuotaType × u_int} {r : Resource}

theorem charges_watched {change sec grace : ℤ} {own unchecked : Bool} {u u' : Usage}
    (hrange : -2 ^ 31 ≤ change) (hsec : -2 ^ 31 ≤ sec + grace) (hsec' : sec + grace < 2 ^ 31)
    (hfair : FairCharge u change unchecked) (h : Charges change sec grace own unchecked u u') :
    Watched sec grace u u' := by
  cases h with
  | release hneg => exact watched_release hneg hrange
  | force hpos hunchecked =>
    refine watched_force fun hcond => ?_
    have := (hfair hpos hcond.1 hcond.2).1
    rw [hunchecked] at this
    cases this
  | check hpos hunchecked hcheck =>
    refine watched_check hsec hsec' (fun hcond => ?_) hcheck
    have hle : u.softlimit ≤ u.plus change := by
      rw [hcond.2.1]
      exact BitVec.le_refl _
    exact hcond.2.2 ((hfair hpos hcond.1 hle).2 hcond.2.1)

theorem chk_watched {r' : Resource} {ip : Inode} {change : ℤ} {cred : Cred} {force : Bool}
    (hrange : -2 ^ 31 ≤ change) (hfair : (Event.chk r' ip change cred force).Fair m s) :
    Watched s.now (m.um_time r d.1) ((s.table d).usage r)
      (((chk m s.now cred r' ip change force s.table).2 d).usage r) := by
  obtain ⟨htime, hfair⟩ := hfair
  unfold chk
  split
  · split
    · exact watched_refl
    · cases hloop : chkLoop m s.now cred r' ip change force quotaTypes [] s.table with
      | mk err t' =>
        cases err with
        | some e =>
          have htried := (@chkLoop_tried m s.now cred r' ip change force s.table t' quotaTypes [] d e
            (fun _ _ => not_mem_nil) quotaTypes_nodup hloop).1 not_mem_nil r
          exact htried.watched
        | none =>
          obtain ⟨hin, hout⟩ := @chkLoop_usage m s.now cred r' ip change force s.table t'
            quotaTypes [] d quotaTypes_nodup hloop
          by_cases hattach : ip.i_dquot d.1 = some d.2
          · obtain ⟨u, hu, hcharges⟩ := hin (mem_quotaTypes d.1) hattach
            simp only [hu]
            by_cases hr : r = r'
            · subst hr
              rw [usage_setUsage]
              exact charges_watched hrange (htime r d.1).1 (htime r d.1).2 (hfair d.1 d.2 hattach)
                hcharges
            · rw [usage_setUsage_ne hr]
              exact watched_refl
          · simp only [hout fun hcond => hattach hcond.2]
            exact watched_refl
  · exact watched_refl

theorem step_watched {e : Event} (hfair : e.Fair m s) (h : (quotas m).step s e s') :
    Watched s'.now (m.um_time r d.1) ((s.table d).usage r) ((s'.table d).usage r) := by
  obtain ⟨htime, hcond⟩ := hfair
  cases e with
  | tick now =>
    obtain ⟨-, rfl⟩ := h
    exact watched_refl
  | chk r' ip change cred force =>
    obtain ⟨hrange, -, rfl⟩ := h
    exact chk_watched hrange ⟨htime, hcond⟩
  | load d' =>
    obtain ⟨-, rfl⟩ := h
    by_cases hd : d = d'
    · subst hd
      simp only [update_self, Dquot.initTimes]
      split
      · intro _
        right
        rw [int32_of_range (htime r d.1).1 (htime r d.1).2]
      · exact watched_refl
    · simp only [update_of_ne hd]
      exact watched_refl
  | setquota d' newlim =>
    cases h
    by_cases hd : d = d'
    · subst hd
      simp only [setquota, update_self]
      refine watched_setLimits (htime r d.1).1 (htime r d.1).2 fun hroot habove => ?_
      exact hcond (beq_iff_eq.mp hroot) r habove
    · simp only [setquota, update_of_ne hd]
      exact watched_refl
  | setuse d' usage =>
    cases h
    by_cases hd : d = d'
    · subst hd
      simp only [setuse, update_self]
      exact watched_setUse (htime r d.1).1 (htime r d.1).2
    · simp only [setuse, update_of_ne hd]
      exact watched_refl

theorem step_now {e : Event} (h : (quotas m).step s e s') : s.now ≤ s'.now := by
  cases e with
  | tick now =>
    obtain ⟨hnow, rfl⟩ := h
    exact hnow
  | chk r ip change cred force =>
    obtain ⟨-, -, rfl⟩ := h
    exact le_rfl
  | load d =>
    obtain ⟨-, rfl⟩ := h
    exact le_rfl
  | setquota d newlim =>
    cases h
    exact le_rfl
  | setuse d usage =>
    cases h
    exact le_rfl

/-- A usage is at or above its soft limit in a state. -/
def AboveIn (d : QuotaType × u_int) (r : Resource) (s : State) : Prop := ((s.table d).usage r).Above

/-- A usage has been at or above its soft limit without interruption for longer than the grace
period, and every time at which it was below is further back. -/
def Overdue (m : Mount) (d : QuotaType × u_int) (r : Resource) (hist : List State) (now : ℤ) : Prop :=
  (∃ s₀, System.HeldSince (AboveIn d r) hist s₀ ∧ s₀.now + m.um_time r d.1 < now) ∧
    ∀ newer s₁ s₀ older, hist = newer ++ s₁ :: s₀ :: older → ¬AboveIn d r s₀ → s₁.now + m.um_time r d.1 < now

theorem overdue_of_time {h : List State}
    (hh : ((quotas m).restrict (Event.Fair m)).History (s :: h)) (habove : AboveIn d r s)
    (htime : ((s.table d).usage r).time < s.now) : Overdue m d r (s :: h) s.now := by
  have hinit (s : State) (hs : (quotas m).init s) : ¬AboveIn d r s := by
    rintro ⟨hne, hle⟩
    have hzero : ((s.table d).usage r).cur = 0 := hs d r
    rw [hzero] at hle
    exact hne (BitVec.le_zero_iff.mp hle)
  have hstep (s : State) (e : Event) (t : State)
      (hs : ((quotas m).restrict (Event.Fair m)).step s e t) (ht : AboveIn d r t) :
      (AboveIn d r s ∧ ((s.table d).usage r).time ≤ ((t.table d).usage r).time) ∨
        t.now + m.um_time r d.1 ≤ ((t.table d).usage r).time := step_watched hs.1 hs.2 ht
  obtain ⟨s₀, hheld, hs₀⟩ := @System.History.deadline _ _ ((quotas m).restrict (Event.Fair m))
    (AboveIn d r) s h State.now (fun s => ((s.table d).usage r).time) _ hinit hstep hh habove
  refine ⟨⟨s₀, hheld, lt_of_le_of_lt hs₀ htime⟩, fun newer s₁ s' older heq hnot => ?_⟩
  have hmem : s₀ ∈ newer ++ [s₁] := by
    rw [heq, show newer ++ s₁ :: s' :: older = (newer ++ [s₁]) ++ s' :: older by simp] at hheld
    exact hheld.mem_newer hnot
  have hle : s₁.now ≤ s₀.now := by
    rcases mem_append.mp hmem with hmem | hmem
    · rw [heq] at hh
      have hclock (s : State) (e : Event) (t : State)
          (hs : ((quotas m).restrict (Event.Fair m)).step s e t) : s.now ≤ t.now := step_now hs.2
      exact System.History.clock_le hclock hh s₀ hmem
    · rw [mem_singleton.mp hmem]
  omega

theorem charges_hard {change sec grace : ℤ} {own : Bool} {u u' : Usage} (hpos : 0 < change)
    (h : Charges change sec grace own false u u') : u'.hardlimit = 0 ∨ u'.cur ≤ u'.hardlimit := by
  cases h with
  | release hneg => omega
  | force _ hunchecked => cases hunchecked
  | check _ _ hcheck =>
    unfold Usage.check at hcheck
    split at hcheck
    · cases hcheck
    rename_i hhard
    have hlimits {u' : Usage} (hu : u'.hardlimit = u.hardlimit) :
        u'.hardlimit = 0 ∨ u.plus change ≤ u'.hardlimit := by
      rw [hu]
      unfold exceeds at hhard
      rw [not_or] at hhard
      by_contra hcon
      rw [not_or] at hcon
      exact hhard.2 ⟨BitVec.not_le.mp hcon.2, hcon.1⟩
    split at hcheck
    · split at hcheck
      · cases hcheck
        exact hlimits rfl
      split at hcheck
      · cases hcheck
      · cases hcheck
        exact hlimits rfl
    · cases hcheck
      exact hlimits rfl

theorem check_refused {change sec grace : ℤ} {own : Bool} {u : Usage} {e : ℕ}
    (h : (u.check change sec grace own).1 = some e) :
    e = EDQUOT ∧ (exceeds (u.plus change) u.hardlimit ∨ (u.Above ∧ u.time < sec)) := by
  unfold Usage.check at h
  split at h
  · rename_i hhard
    cases h
    exact ⟨rfl, .inl hhard⟩
  split at h
  · rename_i hsoft
    split at h
    · cases h
    rename_i hcur
    split at h
    · rename_i htime
      cases h
      exact ⟨rfl, .inr ⟨⟨exceeds_ne_zero hsoft, BitVec.not_lt.mp hcur⟩, htime⟩⟩
    · cases h
  · cases h

/-- Quotas with a grace period of 50. -/
def mount50 : Mount where
  m_quota := true
  um_time _ _ := 50

/-- A user with a soft limit of 10 and a hard limit of 100, at time 1. -/
def newQuotas : State where
  now := 1
  table := fun _ =>
    { dq_cnt := 1
      usage := fun _ => { hardlimit := 100, softlimit := 10, cur := 0, time := 0, warned := false } }

theorem no_blocks : 0 < 2 ^ 31 := by decide

/-- A new file of user 1. -/
def file1 : Inode where
  i_uid := 1
  i_gid := 0
  i_blocks := 0
  i_dquot
    | .USRQUOTA => some 1
    | .GRPQUOTA => none
  blocks_lt := no_blocks

def allocate (n : ℤ) (s : State) : Option ℕ × Table := chk mount50 s.now ⟨1, false⟩ .blocks file1 n false s.table

theorem newQuotas_init : (quotas mount50).init newQuotas := fun _ _ => rfl

/-- The dquot has been read from the quota file. -/
def loaded : State :=
  { newQuotas with
    table := update newQuotas.table (.USRQUOTA, 1)
      ((newQuotas.table (.USRQUOTA, 1)).initTimes mount50 1 .USRQUOTA) }

def later : State := { loaded with now := 100 }

/-- An allocation has reached the soft limit exactly. -/
def atLimit : State := { later with table := (allocate 10 later).2 }

end Run

end Osf1.Quota
