import Osf1.Quota.Model

/-!
# Change of ownership

The references that are taken for the new owner are released once, or they take the place of those
of the old owner, which are released once.  Counts move from the one to the other.
-/

set_option autoImplicit false

namespace Osf1.Quota

open Function List

section References

variable {m : Mount} {sec : ℤ} {k : Kernel} {ip tip : Inode} {new : QuotaType → u_int}
  {t t' t₀ : Table} {is done : List QuotaType} {d : QuotaType × u_int}

/-- A dquot is one of the fake inode that differs. -/
def Holds (ip : Inode) (new : QuotaType → u_int) (tip : Inode) (is : List QuotaType)
    (d : QuotaType × u_int) : Prop :=
  d.1 ∈ is ∧ different ip new d.1 = true ∧ tip.i_dquot d.1 = some d.2

instance (d : QuotaType × u_int) : Decidable (Holds ip new tip is d) := by
  unfold Holds
  infer_instance

theorem holds_cons {i : QuotaType} (hi : i ∉ is) :
    Holds ip new tip (i :: is) d ↔
      (d.1 = i ∧ different ip new i = true ∧ tip.i_dquot i = some d.2) ∨ Holds ip new tip is d := by
  unfold Holds
  by_cases hd : d.1 = i
  · rw [hd]
    simp [hi]
  · simp [hd]

theorem releaseFake_spec (his : is.Nodup) (d : QuotaType × u_int) :
    ((releaseFake ip new tip is t d).dq_cnt = (t d).dq_cnt - if Holds ip new tip is d then 1 else 0) ∧
    ∀ r, count (releaseFake ip new tip is t) d r = count t d r := by
  induction is generalizing t with
  | nil =>
    refine ⟨?_, fun r => rfl⟩
    rw [if_neg fun h => not_mem_nil h.1, sub_zero]
    rfl
  | cons i is ih =>
    obtain ⟨hi, his⟩ := nodup_cons.mp his
    rw [releaseFake]
    cases hdiff : different ip new i with
    | false =>
      simp only [holds_cons hi, hdiff, Bool.false_eq_true, false_and, and_false, false_or, if_false]
      exact ih his
    | true =>
      simp only [if_true]
      cases hid : tip.i_dquot i with
      | none =>
        simp only [dqrele, holds_cons hi, hid, reduceCtorEq, and_false, false_or]
        exact ih his
      | some id =>
        obtain ⟨hcnt, hcount⟩ := @ih (addRef t (i, id) (-1)) his
        simp only [dqrele]
        refine ⟨?_, fun r => (hcount r).trans count_addRef⟩
        rw [hcnt, cnt_addRef]
        by_cases hd : d = (i, id)
        · subst hd
          have hnot : ¬Holds ip new tip is (i, id) := fun h => hi h.1
          rw [if_pos rfl, if_neg hnot, if_pos ((holds_cons hi).mpr (.inl ⟨rfl, hdiff, hid⟩))]
          ring
        · have hiff : Holds ip new tip (i :: is) d ↔ Holds ip new tip is d := by
            rw [holds_cons hi, hid]
            refine or_iff_right fun h => hd ?_
            exact Prod.ext h.1 (Option.some.inj h.2.2).symm
          rw [if_neg hd]
          simp only [hiff]

/-- The dquots of the fake inode have been referenced once. -/
def Held (ip : Inode) (new : QuotaType → u_int) (tip : Inode) (done : List QuotaType)
    (t₀ t : Table) : Prop :=
  ∀ d, ((t d).dq_cnt = (t₀ d).dq_cnt + if Holds ip new tip done d then 1 else 0) ∧ ∀ r, count t d r = count t₀ d r

theorem Held.release (hdone : done.Nodup) (h : Held ip new tip done t₀ t)
    (hsame : SameCounts t' t) : SameCounts (releaseFake ip new tip done t') t₀ := by
  intro d
  obtain ⟨hcnt, hcount⟩ := @releaseFake_spec ip tip new t' done hdone d
  refine ⟨?_, fun r => ?_⟩
  · rw [hcnt, (hsame d).1, (h d).1]
    ring
  · rw [hcount r, (hsame d).2 r, (h d).2 r]

theorem dqget_ok (h : dqget m sec k d t = .ok t') :
    k.error d = none ∧ ∀ d', ((t' d').dq_cnt = (t d').dq_cnt + if d' = d then 1 else 0) ∧
      ∀ r, count t' d' r = count t d' r := by
  unfold dqget at h
  cases herr : k.error d with
  | some e =>
    rw [herr] at h
    cases h
  | none =>
    simp only [herr] at h
    cases h
    refine ⟨rfl, fun d' => ⟨?_, fun r => ?_⟩⟩
    · rw [cnt_addRef]
      by_cases hd : d' = d
      · subst hd
        rw [if_pos rfl, if_pos rfl]
        split <;> simp [Dquot.initTimes]
      · rw [if_neg hd, if_neg hd, add_zero]
        split
        · rw [update_of_ne hd]
        · rfl
    · rw [count_addRef]
      unfold count
      by_cases hd : d' = d
      · subst hd
        split
        · rw [update_self]
          unfold Dquot.initTimes
          simp only
          split <;> rfl
        · rfl
      · split
        · rw [update_of_ne hd]
        · rfl

theorem dqget_error {e : ℕ} (h : dqget m sec k d t = .error e) : k.error d = some e := by
  unfold dqget at h
  cases herr : k.error d with
  | some e' =>
    simp only [herr] at h
    cases h
    rfl
  | none =>
    simp only [herr] at h
    cases h

/-- The dquot of the new owner, if the types differ and there is one. -/
def newDquot (k : Kernel) (ip : Inode) (new : QuotaType → u_int) (i : QuotaType) : Option u_int :=
  if different ip new i = true ∧ k.error (i, owner new i) = none then some (owner new i) else none

theorem buildFake_spec {err : Option ℕ} {tip' : Inode} {done' : List QuotaType}
    (hnodup : (is.reverse ++ done).Nodup) (hheld : Held ip new tip done t₀ t)
    (hnew : ∀ i ∈ done, tip.i_dquot i = newDquot k ip new i)
    (h : buildFake m sec k ip new is done tip t = (err, tip', done', t')) :
    done'.Nodup ∧ Held ip new tip' done' t₀ t' ∧
      (err = none → done' = is.reverse ++ done ∧
        ∀ i ∈ done', tip'.i_dquot i = newDquot k ip new i) := by
  induction is generalizing done tip t with
  | nil =>
    cases h
    exact ⟨hnodup, hheld, fun _ => ⟨rfl, hnew⟩⟩
  | cons i is ih =>
    have hrev : (i :: is).reverse ++ done = is.reverse ++ i :: done := by simp
    rw [hrev] at hnodup ⊢
    have hi : i ∉ done := (nodup_cons.mp (nodup_append.mp hnodup).2.1).1
    have hother (id : Option u_int) (j : QuotaType) (hj : j ∈ done) :
        update tip.i_dquot i id j = tip.i_dquot j :=
      update_of_ne (fun h : j = i => hi (h ▸ hj)) _ _
    -- The types that have been done are not touched.
    have hholds (id : Option u_int) (d : QuotaType × u_int) :
        Holds ip new { tip with i_dquot := update tip.i_dquot i id } (i :: done) d ↔
          (d.1 = i ∧ different ip new i = true ∧ id = some d.2) ∨ Holds ip new tip done d := by
      rw [holds_cons hi]
      refine or_congr ?_ ?_
      · simp only [update_self]
      · unfold Holds
        refine and_congr_right fun hd => ?_
        simp only [hother id d.1 hd]
    have hnews (id : Option u_int) (hid : id = newDquot k ip new i) (j : QuotaType)
        (hj : j ∈ i :: done) : update tip.i_dquot i id j = newDquot k ip new j := by
      rcases mem_cons.mp hj with rfl | hj
      · rw [update_self, hid]
      · rw [hother id j hj, hnew j hj]
    have hnone : Held ip new { tip with i_dquot := update tip.i_dquot i none } (i :: done)
        t₀ t := by
      intro d
      refine ⟨?_, (hheld d).2⟩
      rw [(hheld d).1]
      simp only [hholds none d, reduceCtorEq, and_false, false_or]
    rw [buildFake] at h
    by_cases hdiff : different ip new i = true
    · simp only [if_pos hdiff] at h
      cases hget : dqget m sec k (i, owner new i) t with
      | ok t₁ =>
        simp only [hget] at h
        obtain ⟨hk, hget⟩ := dqget_ok hget
        refine ih hnodup ?_ (hnews _ ?_) h
        · intro d
          refine ⟨?_, fun r => ((hget d).2 r).trans ((hheld d).2 r)⟩
          rw [(hget d).1, (hheld d).1]
          simp only [hholds _ d]
          by_cases hd : d = (i, owner new i)
          · subst hd
            have hnot : ¬Holds ip new tip done (i, owner new i) := fun h => hi h.1
            rw [if_neg hnot, if_pos rfl, if_pos (.inl ⟨rfl, hdiff, rfl⟩), add_zero]
          · rw [if_neg hd, add_zero]
            have hiff : (d.1 = i ∧ different ip new i = true ∧ some (owner new i) = some d.2) ∨
                Holds ip new tip done d ↔ Holds ip new tip done d :=
              or_iff_right fun h => hd (Prod.ext h.1 (Option.some.inj h.2.2).symm)
            simp only [hiff]
        · unfold newDquot
          rw [if_pos ⟨hdiff, hk⟩]
      | error e =>
        simp only [hget] at h
        have hk := dqget_error hget
        split at h
        · refine ih hnodup hnone (hnews none ?_) h
          unfold newDquot
          rw [if_neg fun hcond => by rw [hk] at hcond; exact absurd hcond.2 (by simp)]
        · cases h
          refine ⟨(nodup_cons.mp (nodup_append.mp hnodup).2.1).2, ?_, nofun⟩
          intro d
          refine ⟨?_, (hheld d).2⟩
          rw [(hheld d).1]
          have hiff : Holds ip new { tip with i_dquot := update tip.i_dquot i none } done' d ↔
              Holds ip new tip done' d := by
            refine and_congr_right fun hd => ?_
            simp only [hother none d.1 hd]
          simp only [hiff]
    · simp only [if_neg hdiff] at h
      refine ih hnodup hnone (hnews none ?_) h
      unfold newDquot
      rw [if_neg fun hcond => hdiff hcond.1]

end References

section Moved

variable {c : u_int} {n : ℕ}

theorem moved_charge (h : c.toNat + n < 2 ^ 31) : (moved n c).toNat = c.toNat + n := by
  unfold moved
  rw [if_neg (by omega), BitVec.toNat_add, BitVec.toNat_ofInt]
  omega

theorem moved_release (h : c.toNat < 2 ^ 31) (hn : n < 2 ^ 31) : (moved (-n) c).toNat = c.toNat - n := by
  unfold moved
  by_cases hzero : n = 0
  · subst hzero
    simp
  rw [if_pos (by omega)]
  have hc : c.toInt = c.toNat := by
    rw [BitVec.toInt_eq_toNat_cond, if_pos (by omega)]
  have hint : (c + BitVec.ofInt 32 (-n)).toInt = c.toNat - n := by
    rw [BitVec.toInt_add, BitVec.toInt_ofInt, hc, Int.add_bmod_bmod, Int.bmod_def]
    split <;> omega
  by_cases hle : n ≤ c.toNat
  · rw [if_pos (by omega)]
    rw [BitVec.toNat_add, BitVec.toNat_ofInt]
    omega
  · rw [if_neg (by omega)]
    have hz : (0 : u_int).toNat = 0 := rfl
    omega

end Moved

section Chown

variable {m : Mount} {sec : ℤ} {k : Kernel} {cred : Cred} {ip : Inode} {new : QuotaType → u_int}
  {force : Bool} {t : Table} {r : Resource} {change : ℤ} {t₁ t₂ t₃ t₄ : Table} {tip' : Inode}

/-- How much of a resource an inode takes. -/
def amount (ip : Inode) : Resource → ℕ
  | .blocks => ip.i_blocks
  | .inodes => 1

/-- A dquot is the one of the new owner. -/
def IsNew (k : Kernel) (ip : Inode) (new : QuotaType → u_int) (d : QuotaType × u_int) : Prop :=
  newDquot k ip new d.1 = some d.2

/-- A dquot is one of the old owner that differs. -/
def IsOld (ip : Inode) (new : QuotaType → u_int) (d : QuotaType × u_int) : Prop :=
  different ip new d.1 = true ∧ ip.i_dquot d.1 = some d.2

instance (d : QuotaType × u_int) : Decidable (IsNew k ip new d) := by
  unfold IsNew
  infer_instance

instance (d : QuotaType × u_int) : Decidable (IsOld ip new d) := by
  unfold IsOld
  infer_instance

/-- The counts that are moved stay below 2 ^ 31. -/
def Roomy (k : Kernel) (ip : Inode) (new : QuotaType → u_int) (t : Table) : Prop :=
  ∀ d, IsNew k ip new d ∨ IsOld ip new d → ∀ r, (count t d r).toNat + amount ip r < 2 ^ 31

/-- Without quotas no dquot is attached, and none is found. -/
def NoQuota (m : Mount) (k : Kernel) (ip : Inode) : Prop :=
  m.m_quota = false → ∀ i, ip.i_dquot i = none ∧ ∀ id, k.error (i, id) = some EINVAL

theorem chk_charged {tip : Inode} {t t' : Table} (hm : m.m_quota = false → ∀ i, tip.i_dquot i = none)
    (h : chk m sec cred r tip change force t = (none, t')) : Charged r tip change quotaTypes t t' := by
  cases hquota : m.m_quota with
  | true => exact chk_ok hquota h
  | false =>
    unfold chk at h
    rw [hquota] at h
    cases h
    intro d
    refine ⟨rfl, fun r' => ?_⟩
    rw [if_neg fun hcond => by rw [hm hquota] at hcond; exact absurd hcond.2.2 (by simp)]

theorem chk_nonpos {r : Resource} {change : ℤ} {tip : Inode} (h : change ≤ 0) :
    (chk m sec cred r tip change force t).1 = none := by
  rcases lt_or_eq_of_le h with hneg | hzero
  · exact chk_release hneg
  · unfold chk
    split <;> rfl

theorem holds_new {tip : Inode} (htip : ∀ i, tip.i_dquot i = newDquot k ip new i)
    (d : QuotaType × u_int) : tip.i_dquot d.1 = some d.2 ↔ IsNew k ip new d := by
  unfold IsNew
  rw [htip]

theorem IsNew.differ {d : QuotaType × u_int} (h : IsNew k ip new d) : different ip new d.1 = true := by
  unfold IsNew newDquot at h
  split at h
  · rename_i hcond
    exact hcond.1
  · cases h

/-- What a change of ownership leaves when it succeeds. -/
def Chowned (k : Kernel) (ip : Inode) (new : QuotaType → u_int) (t : Table) (ip' : Inode)
    (t' : Table) : Prop :=
  (∀ i, ip'.i_dquot i = if different ip new i then newDquot k ip new i else ip.i_dquot i) ∧
    ∀ d, ((t' d).dq_cnt = (t d).dq_cnt + (if IsNew k ip new d then 1 else 0) -
        if IsOld ip new d then 1 else 0) ∧
      ∀ r, (count t' d r).toNat = (count t d r).toNat +
        (if IsNew k ip new d then amount ip r else 0) - if IsOld ip new d then amount ip r else 0

theorem charged_new {n : ℕ} {tip : Inode} (htip : ∀ i, tip.i_dquot i = newDquot k ip new i)
    (hroom : ∀ d, IsNew k ip new d → (count t₁ d r).toNat + n < 2 ^ 31)
    (h : Charged r tip n quotaTypes t₁ t₂) (d : QuotaType × u_int) :
    (count t₂ d r).toNat = (count t₁ d r).toNat + if IsNew k ip new d then n else 0 := by
  rw [(h d).2 r]
  simp only [true_and, mem_quotaTypes, holds_new htip d]
  by_cases hd : IsNew k ip new d
  · rw [if_pos hd, if_pos hd, moved_charge (hroom d hd)]
  · rw [if_neg hd, if_neg hd, add_zero]

theorem charged_other {r' : Resource} {tip : Inode} (hne : r' ≠ r)
    (h : Charged r tip change quotaTypes t₁ t₂) (d : QuotaType × u_int) : count t₂ d r' = count t₁ d r' := by
  rw [(h d).2 r', if_neg fun hcond => hne hcond.1]

theorem charged_release {n : ℕ} {tip : Inode} (hn : n < 2 ^ 31)
    (hroom : ∀ d, tip.i_dquot d.1 = some d.2 → (count t₁ d r).toNat < 2 ^ 31)
    (h : Charged r tip (-n) quotaTypes t₁ t₂) (d : QuotaType × u_int) :
    (count t₂ d r).toNat = (count t₁ d r).toNat - if tip.i_dquot d.1 = some d.2 then n else 0 := by
  rw [(h d).2 r]
  simp only [true_and, mem_quotaTypes]
  by_cases hd : tip.i_dquot d.1 = some d.2
  · rw [if_pos hd, if_pos hd, moved_release (hroom d hd) hn]
  · rw [if_neg hd, if_neg hd, Nat.sub_zero]

theorem uncharge {tip : Inode} (htip : ∀ i, tip.i_dquot i = newDquot k ip new i)
    (hroom : ∀ d, IsNew k ip new d → (count t₁ d .blocks).toNat + ip.i_blocks < 2 ^ 31)
    (hcharge : Charged .blocks tip ip.i_blocks quotaTypes t₁ t₂) (hsame : SameCounts t₃ t₂)
    (hback : Charged .blocks tip (-ip.i_blocks) quotaTypes t₃ t₄) : SameCounts t₄ t₁ := by
  have hthree (d : QuotaType × u_int) : (count t₃ d .blocks).toNat =
      (count t₁ d .blocks).toNat + if IsNew k ip new d then ip.i_blocks else 0 := by
    rw [(hsame d).2, charged_new htip hroom hcharge]
  intro d
  refine ⟨by rw [(hback d).1, (hsame d).1, (hcharge d).1], fun r => ?_⟩
  cases r with
  | blocks =>
    refine BitVec.eq_of_toNat_eq ?_
    rw [charged_release ip.blocks_lt (fun d hd => ?_) hback d, hthree d]
    · simp only [holds_new htip d]
      split <;> omega
    · rw [holds_new htip] at hd
      rw [hthree, if_pos hd]
      exact hroom d hd
  | inodes =>
    have hne : Resource.inodes ≠ Resource.blocks := nofun
    rw [charged_other hne hback, (hsame d).2, charged_other hne hcharge]

theorem holds_old {tip : Inode} (htip : ∀ i, tip.i_dquot i = newDquot k ip new i)
    (htip' : tip'.i_dquot = swapDquots ip new ip tip) (d : QuotaType × u_int) :
    tip'.i_dquot d.1 = some d.2 ↔ IsOld ip new d := by
  unfold IsOld
  rw [htip']
  unfold swapDquots
  by_cases hdiff : different ip new d.1 = true
  · simp [hdiff]
  · rw [if_neg hdiff, htip, newDquot, if_neg fun hcond => hdiff hcond.1]
    simp [hdiff]

theorem charge_release {n : ℕ} {tip : Inode} (hn : n < 2 ^ 31) (htip : ∀ i, tip.i_dquot i = newDquot k ip new i)
    (hold : ∀ d, tip'.i_dquot d.1 = some d.2 ↔ IsOld ip new d)
    (hroom : ∀ d, IsNew k ip new d ∨ IsOld ip new d → (count t₁ d r).toNat + n < 2 ^ 31)
    (hgain : Charged r tip n quotaTypes t₁ t₂) (hmid : ∀ d, count t₃ d r = count t₂ d r)
    (hloss : Charged r tip' (-n) quotaTypes t₃ t₄) (d : QuotaType × u_int) :
    (count t₄ d r).toNat = (count t₁ d r).toNat + (if IsNew k ip new d then n else 0) -
      if IsOld ip new d then n else 0 := by
  have hthree (d : QuotaType × u_int) : (count t₃ d r).toNat =
      (count t₁ d r).toNat + if IsNew k ip new d then n else 0 := by
    rw [hmid, charged_new htip (fun d hd => hroom d (.inl hd)) hgain]
  rw [charged_release hn (fun d hd => ?_) hloss d, hthree d]
  · simp only [hold d]
  · have := hroom d (.inr ((hold d).mp hd))
    rw [hthree]
    split <;> omega

theorem quota_chown_spec {err : Option ℕ} {ip' : Inode} {t' : Table} (hroom : Roomy k ip new t)
    (hoff : NoQuota m k ip) (h : quota_chown m sec k cred ip new force t = (err, ip', t')) :
    (err ≠ none → ip' = ip ∧ SameCounts t' t) ∧ (err = none → Chowned k ip new t ip' t') := by
  unfold quota_chown at h
  simp only at h
  cases hbuild : buildFake m sec k ip new quotaTypes [] _ t with
  | mk err₁ rest =>
    obtain ⟨tip, done, t₁⟩ := rest
    rw [hbuild] at h
    obtain ⟨hdone, hheld, hnew⟩ := buildFake_spec (by simp [quotaTypes])
      (fun d => ⟨by rw [if_neg fun hd => not_mem_nil hd.1, add_zero], fun r => rfl⟩)
      (fun i hi => absurd hi not_mem_nil) hbuild
    cases err₁ with
    | some e =>
      cases h
      exact ⟨fun _ => ⟨rfl, hheld.release hdone (SameCounts.refl t₁)⟩, nofun⟩
    | none =>
      obtain ⟨rfl, hnew⟩ := hnew rfl
      have htip (i : QuotaType) : tip.i_dquot i = newDquot k ip new i := by
        refine hnew i ?_
        cases i <;> decide
      have htipoff : m.m_quota = false → ∀ i, tip.i_dquot i = none := by
        intro hm i
        rw [htip]
        unfold newDquot
        rw [if_neg fun hcond => by rw [(hoff hm i).2] at hcond; exact absurd hcond.2 (by simp)]
      cases hdq : chkdq m sec cred tip (ip.i_blocks : ℤ) force t₁ with
      | mk err₂ t₂ =>
        simp only [hdq] at h
        cases err₂ with
        | some e =>
          cases h
          exact ⟨fun _ => ⟨rfl, hheld.release hdone (chk_error hdq)⟩, nofun⟩
        | none =>
          have hcharge := chk_charged htipoff hdq
          have hcount (d : QuotaType × u_int) (r : Resource) : count t₁ d r = count t d r := (hheld d).2 r
          have hroom₁ (d : QuotaType × u_int) (hd : IsNew k ip new d) :
              (count t₁ d .blocks).toNat + ip.i_blocks < 2 ^ 31 := by
            rw [hcount]
            exact hroom d (.inl hd) .blocks
          cases hiq : chkiq m sec cred tip 1 force t₂ with
          | mk err₃ t₃ =>
            simp only [hiq] at h
            cases err₃ with
            | some e =>
              cases h
              refine ⟨fun _ => ⟨rfl, hheld.release hdone ?_⟩, nofun⟩
              cases hback : chkdq m sec cred tip (-(ip.i_blocks : ℤ)) true t₃ with
              | mk err₄ t₄ =>
                have hnone := @chk_nonpos m sec cred true t₃ .blocks (-(ip.i_blocks : ℤ)) tip
                  (by omega)
                have hback' : chk m sec cred .blocks tip (-(ip.i_blocks : ℤ)) true t₃ = (err₄, t₄) := hback
                rw [hback'] at hnone
                cases hnone
                exact uncharge htip hroom₁ hcharge (chk_error hiq)
                  (chk_charged htipoff hback')
            | none =>
              have hgain := chk_charged htipoff hiq
              generalize htip' : ({ tip with
                i_uid := ip.i_uid
                i_gid := ip.i_gid
                i_dquot := swapDquots ip new ip tip } : Inode) = tip' at h
              have hdquot : tip'.i_dquot = swapDquots ip new ip tip := by rw [← htip']
              have hold := holds_old htip hdquot
              have hoff' (hm : m.m_quota = false) (i : QuotaType) : tip'.i_dquot i = none := by
                rw [hdquot]
                unfold swapDquots
                split
                · exact (hoff hm i).1
                · exact htipoff hm i
              cases hloss : chkdq m sec cred tip' (-(ip.i_blocks : ℤ)) force t₃ with
              | mk err₄ t₄ =>
                have hnone := @chk_nonpos m sec cred force t₃ .blocks (-(ip.i_blocks : ℤ)) tip'
                  (by omega)
                have hloss' : chk m sec cred .blocks tip' (-(ip.i_blocks : ℤ)) force t₃ = (err₄, t₄) := hloss
                rw [hloss'] at hnone
                cases hnone
                simp only [hloss] at h
                cases hiloss : chkiq m sec cred tip' (-1) force t₄ with
                | mk err₅ t₅ =>
                  have hnone := @chk_nonpos m sec cred force t₄ .inodes (-1) tip' (by omega)
                  have hiloss' : chk m sec cred .inodes tip' (-1) force t₄ = (err₅, t₅) := hiloss
                  rw [hiloss'] at hnone
                  cases hnone
                  simp only [hiloss] at h
                  cases h
                  refine ⟨fun hne => absurd rfl hne, fun _ => ⟨fun i => ?_, fun d => ?_⟩⟩
                  · show swapDquots ip new tip ip i = _
                    unfold swapDquots
                    rw [htip]
                  have hloss := chk_charged hoff' hloss'
                  have hiloss := chk_charged hoff' hiloss'
                  obtain ⟨hcnt, hsame⟩ := @releaseFake_spec ip tip' new t₅ quotaTypes quotaTypes_nodup d
                  have hholds : Holds ip new tip' quotaTypes d ↔ IsOld ip new d := by
                    unfold Holds
                    rw [hold d]
                    exact ⟨fun hd => hd.2.2, fun hd => ⟨mem_quotaTypes _, hd.1, hd⟩⟩
                  have hheldnew : Holds ip new tip (quotaTypes.reverse ++ []) d ↔ IsNew k ip new d := by
                    unfold Holds
                    rw [holds_new htip d]
                    refine ⟨fun hd => hd.2.2, fun hd => ⟨?_, hd.differ, hd⟩⟩
                    rw [append_nil, mem_reverse]
                    exact mem_quotaTypes _
                  refine ⟨?_, fun r => ?_⟩
                  · rw [hcnt, (hiloss d).1, (hloss d).1, (hgain d).1, (hcharge d).1, (hheld d).1]
                    simp only [hholds, hheldnew]
                  · rw [hsame r, ← hcount d r]
                    have hne : Resource.inodes ≠ Resource.blocks := nofun
                    have hroom' (r : Resource) (d : QuotaType × u_int)
                        (hd : IsNew k ip new d ∨ IsOld ip new d) :
                        (count t₁ d r).toNat + amount ip r < 2 ^ 31 := by
                      rw [hcount]
                      exact hroom d hd r
                    cases r with
                    | blocks =>
                      rw [charged_other hne.symm hiloss d]
                      exact charge_release ip.blocks_lt htip hold (hroom' .blocks) hcharge
                        (charged_other hne.symm hgain) hloss d
                    | inodes =>
                      have hfirst (d : QuotaType × u_int) := charged_other hne hcharge d
                      rw [← hfirst d]
                      refine charge_release (by decide) htip hold (fun d hd => ?_) hgain
                        (charged_other hne hloss) hiloss d
                      rw [hfirst d]
                      exact hroom' .inodes d hd

end Chown

section Conserved

/-- A refused charge leaves all counts as they were, and a change of ownership moves its charges as a whole. -/
theorem charges_conserved (m : Mount) (sec : ℤ) (cred : Cred) (force : Bool) (t : Table) (ip : Inode) :
    (∀ r change e t', chk m sec cred r ip change force t = (some e, t') → SameCounts t' t) ∧
    ∀ k new err ip' t', Roomy k ip new t → NoQuota m k ip →
      quota_chown m sec k cred ip new force t = (err, ip', t') →
        (err ≠ none → ip' = ip ∧ SameCounts t' t) ∧ (err = none → Chowned k ip new t ip' t') :=
  ⟨fun _ _ _ _ h => chk_error h, fun _ _ _ _ _ hroom hoff h => quota_chown_spec hroom hoff h⟩

/-- A user with nothing charged, and without limits. -/
def idle : Usage where
  hardlimit := 0
  softlimit := 0
  cur := 0
  time := 0
  warned := false

def idleTable : Table := fun _ => { dq_cnt := 1, usage := fun _ => idle }

/-- A file of user 1, with 8 blocks. -/
def userFile : Inode where
  i_uid := 1
  i_gid := 0
  i_blocks := 8
  i_dquot
    | .USRQUOTA => some 1
    | .GRPQUOTA => none
  blocks_lt := by decide

def toUser2 : QuotaType → u_int
  | .USRQUOTA => 2
  | .GRPQUOTA => 0

def plainMount : Mount where
  m_quota := true
  um_time _ _ := 0

def plainKernel : Kernel where
  error _ := none
  miss _ := false

theorem roomy_idle : Roomy plainKernel userFile toUser2 idleTable := by
  intro d _ r
  cases r with
  | blocks => exact (by decide : (0 : u_int).toNat + 8 < 2 ^ 31)
  | inodes => exact (by decide : (0 : u_int).toNat + 1 < 2 ^ 31)

theorem charges_conserved_idle : SameCounts idleTable idleTable ∧
    ((quota_chown plainMount 0 plainKernel ⟨0, true⟩ userFile toUser2 false idleTable).1 = none →
      Chowned plainKernel userFile toUser2 idleTable
        (quota_chown plainMount 0 plainKernel ⟨0, true⟩ userFile toUser2 false idleTable).2.1
        (quota_chown plainMount 0 plainKernel ⟨0, true⟩ userFile toUser2 false idleTable).2.2) :=
  ⟨SameCounts.refl idleTable,
    ((charges_conserved plainMount 0 ⟨0, true⟩ false idleTable userFile).2 plainKernel toUser2 _ _ _
      roomy_idle nofun rfl).2⟩

/-- Of an owner who has less, not everything is moved. -/
theorem chown_stops_at_zero :
    (quota_chown plainMount 0 plainKernel ⟨0, true⟩ userFile toUser2 false idleTable).1 = none ∧
      ((count (quota_chown plainMount 0 plainKernel ⟨0, true⟩ userFile toUser2 false idleTable).2.2
        (.USRQUOTA, 1) .blocks).toNat : ℤ) ≠
          (count idleTable (.USRQUOTA, 1) .blocks).toNat - userFile.i_blocks := by
  decide

end Conserved

end Osf1.Quota
