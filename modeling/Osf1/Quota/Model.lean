import Osf1.Errno

/-!
# Disk quotas

Blocks and inodes are charged in the same way, to the dquot of the owner and to that of the group.
The counts are `u_int`; the code looks at some of them as `int`.  What is printed is left out, and
so is the contents of the quota file.
-/

set_option autoImplicit false

namespace Osf1.Quota

open Function

section Model

abbrev u_int := BitVec 32

abbrev u_short := BitVec 16

/-- An `int`, and a `time_t`. -/
def int32 (x : ℤ) : ℤ := x.bmod (2 ^ 32)

/-- The elements of the quota arrays.
SRC: ufs/quota.h:89-91 -/
inductive QuotaType
  | USRQUOTA
  | GRPQUOTA
deriving DecidableEq

/-- The order in which the loops take them. -/
def quotaTypes : List QuotaType := [.USRQUOTA, .GRPQUOTA]

inductive Resource
  | blocks
  | inodes
deriving DecidableEq

/-- What a dquot has of one resource: the limits, the count, and the time until which the soft limit
may be exceeded.  `warned` is `DQ_BLKS` or `DQ_INODS`.
SRC: ufs/quota.h:137-146 -/
structure Usage where
  hardlimit : u_int
  softlimit : u_int
  cur : u_int
  time : ℤ
  warned : Bool

/-- SRC: ufs/quota.h:155-167 -/
structure Dquot where
  dq_cnt : ℤ
  usage : Resource → Usage

/-- The dquots of a file system. -/
abbrev Table := QuotaType × u_int → Dquot

/-- `i_dquot` tells the identifier of the dquot that is attached.
SRC: ufs/inode.h:120-158, ufs/dinode.h:83-109 -/
structure Inode where
  i_uid : u_short
  i_gid : u_short
  i_blocks : ℕ
  i_dquot : QuotaType → Option u_int
  blocks_lt : i_blocks < 2 ^ 31

/-- The time limits of a mount point, and whether it has quotas.
SRC: ufs/ufsmount.h:74-77 -/
structure Mount where
  m_quota : Bool
  um_time : Resource → QuotaType → ℤ

/-- The credentials of a caller, whom `ESCAPE_QCHECK` may let escape. -/
structure Cred where
  cr_uid : u_int
  escape : Bool

section Usage

/-- A limit of 1 means that nothing may be allocated. -/
def exceeds (count limit : u_int) : Prop := (limit = 1 ∧ count ≠ 0) ∨ (limit < count ∧ limit ≠ 0)

instance (count limit : u_int) : Decidable (exceeds count limit) := by
  unfold exceeds
  infer_instance

/-- Some more, or less. -/
def Usage.plus (u : Usage) (change : ℤ) : u_int := u.cur + BitVec.ofInt 32 change

/-- The owner of a file is told once. -/
def Usage.warn (u : Usage) (own : Bool) : Usage := if own then { u with warned := true } else u

/-- Check for a valid change to a users allocation.
SRC: ufs/ufs_quota.c:266-339 and 437-509 -/
def Usage.check (u : Usage) (change sec grace : ℤ) (own : Bool) : Option ℕ × Usage :=
  if exceeds (u.plus change) u.hardlimit then (some EDQUOT, u.warn own)
  else if exceeds (u.plus change) u.softlimit then
    if u.cur < u.softlimit then (none, { u with time := int32 (sec + grace) })
    else if u.time < sec then (some EDQUOT, u.warn own)
    else (none, u)
  else (none, u)

/-- Something is given back.  A count does not become negative.
SRC: ufs/ufs_quota.c:226-233 and 396-403 -/
def Usage.release (u : Usage) (change : ℤ) : Usage :=
  { u with
    cur := if 0 ≤ (u.plus change).toInt then u.plus change else 0
    warned := false }

end Usage

def setUsage (t : Table) (d : QuotaType × u_int) (r : Resource) (u : Usage) : Table :=
  update t d { t d with usage := update (t d).usage r u }

def addRef (t : Table) (d : QuotaType × u_int) (n : ℤ) : Table := update t d { t d with dq_cnt := (t d).dq_cnt + n }

section Charge

variable (m : Mount) (sec : ℤ) (cred : Cred) (r : Resource) (ip : Inode) (change : ℤ)

/-- Back out previous changes.
SRC: ufs/ufs_quota.c:242-249 and 409-416 -/
def backOut : List QuotaType → Table → Table
  | [], t => t
  | i :: is, t =>
    match ip.i_dquot i with
    | none => backOut is t
    | some id =>
      let u := (t (i, id)).usage r
      backOut is (setUsage t (i, id) r { u with cur := u.plus (-change) })

/-- Loop through the inode's dquots checking all existing quotas.  The second list is of those that
have been done, the last one first.
SRC: ufs/ufs_quota.c:221-257 and 391-424 -/
def chkLoop (force : Bool) : List QuotaType → List QuotaType → Table → Option ℕ × Table
  | [], _, t => (none, t)
  | i :: is, done, t =>
    match ip.i_dquot i with
    | none => chkLoop force is (i :: done) t
    | some id =>
      let u := (t (i, id)).usage r
      if change < 0 then chkLoop force is (i :: done) (setUsage t (i, id) r (u.release change))
      else if force || cred.escape then
        chkLoop force is (i :: done) (setUsage t (i, id) r { u with cur := u.plus change })
      else
        match u.check change sec (m.um_time r i) (ip.i_uid.setWidth 32 == cred.cr_uid) with
        | (some e, u) => (some e, backOut r ip change done (setUsage t (i, id) r u))
        | (none, u) => chkLoop force is (i :: done) (setUsage t (i, id) r { u with cur := u.plus change })

def chk (force : Bool) (t : Table) : Option ℕ × Table :=
  if m.m_quota then
    if change = 0 then (none, t) else chkLoop m sec cred r ip change force quotaTypes [] t
  else (none, t)

/-- SRC: ufs/ufs_quota.c:182-260 -/
def chkdq (force : Bool) (t : Table) : Option ℕ × Table := chk m sec cred .blocks ip change force t

/-- SRC: ufs/ufs_quota.c:354-426 -/
def chkiq (force : Bool) (t : Table) : Option ℕ × Table := chk m sec cred .inodes ip change force t

end Charge

section Cache

/-- What happens when a dquot is looked up: an error, or whether it is read from the quota file. -/
structure Kernel where
  error : QuotaType × u_int → Option ℕ
  miss : QuotaType × u_int → Bool

variable (m : Mount) (sec : ℤ) (k : Kernel)

/-- Initialize time values if necessary.
SRC: ufs/ufs_quota.c:1445-1458 -/
def Dquot.initTimes (d : Dquot) (type : QuotaType) : Dquot :=
  { d with
    usage := fun r =>
      if (d.usage r).time = 0 then
        { d.usage r with time := int32 (sec + m.um_time r type) }
      else d.usage r }

/-- Obtain a dquot structure for the specified identifier.
SRC: ufs/ufs_quota.c:1254-1466 -/
def dqget (d : QuotaType × u_int) (t : Table) : Except ℕ Table :=
  match k.error d with
  | some e => .error e
  | none =>
    let t := if k.miss d && d.2 != 0 then update t d ((t d).initTimes m sec d.1) else t
    .ok (addRef t d 1)

/-- Release a reference to a dquot, if there is one.
SRC: ufs/ufs_quota.c:1471-1483 -/
def dqrele (i : QuotaType) (id : Option u_int) (t : Table) : Table :=
  match id with
  | none => t
  | some id => addRef t (i, id) (-1)

end Cache

section Chown

variable (m : Mount) (sec : ℤ) (k : Kernel) (cred : Cred)

def Inode.owner (ip : Inode) : QuotaType → u_short
  | .USRQUOTA => ip.i_uid
  | .GRPQUOTA => ip.i_gid

/-- Whether the old and the new owner differ.  The new one is not narrowed here.
SRC: ufs/ufs_quota.c:608 and 610 -/
def different (ip : Inode) (new : QuotaType → u_int) (i : QuotaType) : Bool := (ip.owner i).setWidth 32 != new i

/-- The identifier of the new owner, in the width of the inode.
SRC: ufs/ufs_quota.c:609 and 611 -/
def owner (new : QuotaType → u_int) (i : QuotaType) : u_int := ((new i).setWidth 16).setWidth 32

/-- Build fake inode containing differing dquots.  The types that have been done come with it, the
last one first.
SRC: ufs/ufs_quota.c:618-626 -/
def buildFake (ip : Inode) (new : QuotaType → u_int) :
    List QuotaType → List QuotaType → Inode → Table → Option ℕ × Inode × List QuotaType × Table
  | [], done, tip, t => (none, tip, done, t)
  | i :: is, done, tip, t =>
    let attach (id : Option u_int) : Inode := { tip with i_dquot := update tip.i_dquot i id }
    if different ip new i then
      match dqget m sec k (i, owner new i) t with
      | .ok t => buildFake ip new is (i :: done) (attach (some (owner new i))) t
      | .error e =>
        if e = EINVAL then buildFake ip new is (i :: done) (attach none) t
        else (some e, attach none, done, t)
    else buildFake ip new is (i :: done) (attach none) t

/-- Release accumulated dquots.
SRC: ufs/ufs_quota.c:665-672 and 695-698 -/
def releaseFake (ip : Inode) (new : QuotaType → u_int) (tip : Inode) :
    List QuotaType → Table → Table
  | [], t => t
  | i :: is, t =>
    if different ip new i then releaseFake ip new tip is (dqrele i (tip.i_dquot i) t)
    else releaseFake ip new tip is t

/-- The dquots that differ are taken from another inode.
SRC: ufs/ufs_quota.c:673-688 -/
def swapDquots (ip : Inode) (new : QuotaType → u_int) (src dst : Inode) :
    QuotaType → Option u_int :=
  fun i => if different ip new i then src.i_dquot i else dst.i_dquot i

/-- Changing ownership of a file.  The result is the error, the inode with its dquots, and what
becomes of the dquots.
SRC: ufs/ufs_quota.c:571-706 -/
def quota_chown (ip : Inode) (new : QuotaType → u_int) (force : Bool) (t : Table) :
    Option ℕ × Inode × Table :=
  let change : ℤ := ip.i_blocks
  let tip : Inode :=
    { i_uid := (new .USRQUOTA).setWidth 16
      i_gid := (new .GRPQUOTA).setWidth 16
      i_blocks := 0
      i_dquot := fun _ => none
      blocks_lt := by decide }
  match buildFake m sec k ip new quotaTypes [] tip t with
  | (some e, tip, done, t) => (some e, ip, releaseFake ip new tip done t)
  | (none, tip, done, t) =>
    match chkdq m sec cred tip change force t with
    | (some e, t) => (some e, ip, releaseFake ip new tip done t)
    | (none, t) =>
      match chkiq m sec cred tip 1 force t with
      | (some e, t) =>
        (some e, ip, releaseFake ip new tip done (chkdq m sec cred tip (-change) true t).2)
      | (none, t) =>
        let ip' := { ip with i_dquot := swapDquots ip new tip ip }
        -- The fake inode is now that of the old owner.
        let tip :=
          { tip with
            i_uid := ip.i_uid
            i_gid := ip.i_gid
            i_dquot := swapDquots ip new ip tip }
        match chkdq m sec cred tip (-change) force t with
        | (some e, t) => (some e, ip', releaseFake ip new tip quotaTypes t)
        | (none, t) =>
          match chkiq m sec cred tip (-1) force t with
          | (some e, t) =>
            (some e, ip', releaseFake ip new tip quotaTypes (chkdq m sec cred tip change true t).2)
          | (none, t) => (none, ip', releaseFake ip new tip quotaTypes t)

end Chown

section Limits

variable (m : Mount) (sec : ℤ)

/-- Reset time limit if previously had no soft limit or were under it, but now have a soft limit and
are over it.  `root` tells that the dquot is that of identifier 0, whose times are set as well.
SRC: ufs/ufs_quota.c:1000-1022 -/
def Usage.setLimits (u newlim : Usage) (root : Bool) (grace : ℤ) : Usage :=
  let time := if root then newlim.time else u.time
  { newlim with
    cur := u.cur
    time :=
      if newlim.softlimit ≠ 0 ∧ newlim.softlimit ≤ u.cur ∧
          (u.softlimit = 0 ∨ u.cur < u.softlimit) then int32 (sec + grace)
      else time
    warned := if u.cur < newlim.softlimit then false else u.warned }

/-- Q_SETQUOTA - assign an entire dqblk structure.
SRC: ufs/ufs_quota.c:969-1034 -/
def setquota (d : QuotaType × u_int) (newlim : Resource → Usage) (t : Table) : Table :=
  update t d
    { t d with
      usage := fun r =>
        ((t d).usage r).setLimits sec (newlim r) (d.2 == 0) (m.um_time r d.1) }

/-- Reset time limit if have a soft limit and were previously under it, but are now over it.
SRC: ufs/ufs_quota.c:1056-1072 -/
def Usage.setUse (u : Usage) (cur : u_int) (grace : ℤ) : Usage :=
  { u with
    cur := cur
    time :=
      if u.softlimit ≠ 0 ∧ u.cur < u.softlimit ∧ u.softlimit ≤ cur then int32 (sec + grace)
      else u.time
    warned := if cur < u.softlimit then false else u.warned }

/-- Q_SETUSE - set current inode and block usage.
SRC: ufs/ufs_quota.c:1039-1079 -/
def setuse (d : QuotaType × u_int) (usage : Resource → u_int) (t : Table) : Table :=
  update t d
    { t d with
      usage := fun r => ((t d).usage r).setUse sec (usage r) (m.um_time r d.1) }

end Limits

end Model

/-!
## What is charged

A charge that is refused leaves all counts as they were.  A change of ownership that succeeds moves
the blocks and the inode, and one that fails moves nothing.
-/

section Charges

section Table

variable {t t' : Table} {d d' : QuotaType × u_int} {r r' : Resource} {u : Usage} {n : ℤ}

/-- The count of a resource. -/
def count (t : Table) (d : QuotaType × u_int) (r : Resource) : u_int := ((t d).usage r).cur

/-- All counts are the same, and so are the references. -/
def SameCounts (t t' : Table) : Prop := ∀ d, (t d).dq_cnt = (t' d).dq_cnt ∧ ∀ r, count t d r = count t' d r

theorem SameCounts.refl (t : Table) : SameCounts t t := fun _ => ⟨rfl, fun _ => rfl⟩

theorem SameCounts.trans {t'' : Table} (h : SameCounts t t') (h' : SameCounts t' t'') : SameCounts t t'' :=
  fun d => ⟨(h d).1.trans (h' d).1, fun r => ((h d).2 r).trans ((h' d).2 r)⟩

theorem count_setUsage : count (setUsage t d r u) d' r' = if d' = d ∧ r' = r then u.cur else count t d' r' := by
  unfold count setUsage
  by_cases hd : d' = d
  · subst hd
    by_cases hr : r' = r
    · subst hr
      simp
    · simp [hr]
  · simp [hd]

theorem cnt_setUsage : (setUsage t d r u d').dq_cnt = (t d').dq_cnt := by
  unfold setUsage
  by_cases hd : d' = d
  · subst hd
    rw [update_self]
  · rw [update_of_ne hd]

theorem count_addRef : count (addRef t d n) d' r = count t d' r := by
  unfold count addRef
  by_cases hd : d' = d
  · subst hd
    rw [update_self]
  · rw [update_of_ne hd]

theorem cnt_addRef : (addRef t d n d').dq_cnt = if d' = d then (t d').dq_cnt + n else (t d').dq_cnt := by
  unfold addRef
  by_cases hd : d' = d
  · subst hd
    rw [update_self, if_pos rfl]
  · rw [update_of_ne hd, if_neg hd]

theorem setUsage_same (h : u.cur = count t d r) : SameCounts (setUsage t d r u) t := by
  intro d'
  refine ⟨cnt_setUsage, fun r' => ?_⟩
  rw [count_setUsage]
  split
  · rename_i hdr
    rw [hdr.1, hdr.2, h]
  · rfl

theorem setUsage_congr {u' : Usage} (h : SameCounts t t') (hu : u.cur = u'.cur) :
    SameCounts (setUsage t d r u) (setUsage t' d r u') := by
  intro d'
  refine ⟨?_, fun r' => ?_⟩
  · rw [cnt_setUsage, cnt_setUsage, (h d').1]
  · rw [count_setUsage, count_setUsage, hu, (h d').2]

theorem warn_cur {own : Bool} : (u.warn own).cur = u.cur := by
  cases own <;> rfl

theorem check_cur {change sec grace : ℤ} {own : Bool} : (u.check change sec grace own).2.cur = u.cur := by
  unfold Usage.check
  split
  · exact warn_cur
  split
  · split
    · rfl
    split
    · exact warn_cur
    · rfl
  · rfl

end Table

section Loop

variable {m : Mount} {sec : ℤ} {cred : Cred} {r : Resource} {ip : Inode} {change : ℤ} {force : Bool}
  {t t' : Table} {is done : List QuotaType}

theorem backOut_congr (h : SameCounts t t') :
    SameCounts (backOut r ip change is t) (backOut r ip change is t') := by
  induction is generalizing t t' with
  | nil => exact h
  | cons i is ih =>
    rw [backOut, backOut]
    cases ip.i_dquot i with
    | none => exact ih h
    | some id =>
      refine ih (setUsage_congr h ?_)
      show count t (i, id) r + _ = count t' (i, id) r + _
      rw [(h (i, id)).2]

theorem plus_neg {u : Usage} : (u.plus change) + BitVec.ofInt 32 (-change) = u.cur := by
  unfold Usage.plus
  rw [BitVec.ofInt_neg, ← BitVec.sub_eq_add_neg, BitVec.add_sub_cancel]

/-- What a count becomes. -/
def moved (change : ℤ) (c : u_int) : u_int :=
  if change < 0 then
    if 0 ≤ (c + BitVec.ofInt 32 change).toInt then c + BitVec.ofInt 32 change else 0
  else c + BitVec.ofInt 32 change

/-- A usage has been charged. -/
inductive Charges (change sec grace : ℤ) (own unchecked : Bool) (u : Usage) : Usage → Prop
  | release : change < 0 → Charges change sec grace own unchecked u (u.release change)
  | force : 0 ≤ change → unchecked = true → Charges change sec grace own unchecked u { u with cur := u.plus change }
  | check {u' : Usage} : 0 ≤ change → unchecked = false →
      u.check change sec grace own = (none, u') →
      Charges change sec grace own unchecked u { u' with cur := u.plus change }

theorem Charges.cur {grace : ℤ} {own unchecked : Bool} {u u' : Usage} (h : Charges change sec grace own unchecked u u') :
    u'.cur = moved change u.cur := by
  unfold moved
  cases h with
  | release hneg =>
    rw [if_pos hneg]
    rfl
  | force hpos => exact (if_neg (not_lt.mpr hpos)).symm
  | check hpos => exact (if_neg (not_lt.mpr hpos)).symm

theorem chkLoop_none {i : QuotaType} (hid : ip.i_dquot i = none) :
    chkLoop m sec cred r ip change force (i :: is) done t = chkLoop m sec cred r ip change force is (i :: done) t := by
  rw [chkLoop]
  simp only [hid]

/-- A round for a dquot charges it and goes on, or is refused and backs out. -/
theorem chkLoop_some {i : QuotaType} {id : u_int} {err : Option ℕ} (hid : ip.i_dquot i = some id)
    (h : chkLoop m sec cred r ip change force (i :: is) done t = (err, t')) :
    (∃ u, Charges change sec (m.um_time r i) (ip.i_uid.setWidth 32 == cred.cr_uid) (force || cred.escape)
        ((t (i, id)).usage r) u ∧
      chkLoop m sec cred r ip change force is (i :: done) (setUsage t (i, id) r u) = (err, t')) ∨
    ∃ e u, err = some e ∧ t' = backOut r ip change done (setUsage t (i, id) r u) ∧
      ((t (i, id)).usage r).check change sec (m.um_time r i) (ip.i_uid.setWidth 32 == cred.cr_uid) = (some e, u) := by
  rw [chkLoop] at h
  simp only [hid] at h
  by_cases hneg : change < 0
  · simp only [if_pos hneg] at h
    exact .inl ⟨_, .release hneg, h⟩
  simp only [if_neg hneg] at h
  by_cases hforce : (force || cred.escape) = true
  · simp only [if_pos hforce] at h
    exact .inl ⟨_, .force (not_lt.mp hneg) hforce, h⟩
  simp only [if_neg hforce] at h
  cases hcheck : ((t (i, id)).usage r).check change sec (m.um_time r i) (ip.i_uid.setWidth 32 == cred.cr_uid) with
  | mk err' u =>
    have hcur := @check_cur ((t (i, id)).usage r) change sec (m.um_time r i) (ip.i_uid.setWidth 32 == cred.cr_uid)
    rw [hcheck] at h hcur
    cases err' with
    | some e =>
      cases h
      exact .inr ⟨e, u, rfl, rfl, rfl⟩
    | none =>
      have hplus : u.plus change = ((t (i, id)).usage r).plus change := by
        unfold Usage.plus
        rw [hcur]
      simp only [hplus] at h
      exact .inl ⟨_, .check (not_lt.mp hneg) (Bool.not_eq_true _ ▸ hforce) hcheck, h⟩

theorem chkLoop_release {is done : List QuotaType} (hneg : change < 0) :
    (chkLoop m sec cred r ip change force is done t).1 = none := by
  induction is generalizing done t with
  | nil => rfl
  | cons i is ih =>
    rw [chkLoop]
    cases ip.i_dquot i with
    | none => exact ih
    | some id =>
      simp only [if_pos hneg]
      exact ih

theorem chkLoop_nonneg {e : ℕ} (h : chkLoop m sec cred r ip change force is done t = (some e, t')) : ¬change < 0 := by
  intro hneg
  have hnone := @chkLoop_release m sec cred r ip change force t is done hneg
  rw [h] at hnone
  cases hnone

theorem chkLoop_error {e : ℕ} {t' : Table} (h : chkLoop m sec cred r ip change force is done t = (some e, t')) :
    SameCounts t' (backOut r ip change done t) := by
  induction is generalizing done t with
  | nil => simp [chkLoop] at h
  | cons i is ih =>
    have hneg := chkLoop_nonneg h
    cases hid : ip.i_dquot i with
    | none =>
      have hdone := ih (chkLoop_none hid ▸ h)
      rw [backOut] at hdone
      simpa only [hid] using hdone
    | some id =>
      rcases chkLoop_some hid h with ⟨u, hu, h⟩ | ⟨e, u, -, rfl, hcheck⟩
      · -- What is charged here is backed out first.
        refine (ih h).trans ?_
        rw [backOut]
        simp only [hid]
        refine backOut_congr fun d => ⟨by rw [cnt_setUsage, cnt_setUsage], fun r' => ?_⟩
        rw [count_setUsage]
        split
        · rename_i hdr
          rw [hdr.1, hdr.2]
          have hcount : count (setUsage t (i, id) r u) (i, id) r = ((t (i, id)).usage r).plus change := by
            rw [count_setUsage, if_pos ⟨rfl, rfl⟩, hu.cur, moved, if_neg hneg]
            rfl
          show count (setUsage t (i, id) r u) (i, id) r + _ = count t (i, id) r
          rw [hcount, plus_neg]
          rfl
        · rename_i hdr
          rw [count_setUsage, if_neg hdr]
      · refine backOut_congr (setUsage_same ?_)
        have hcur := @check_cur ((t (i, id)).usage r) change sec (m.um_time r i) (ip.i_uid.setWidth 32 == cred.cr_uid)
        rwa [hcheck] at hcur

/-- The dquots that are attached for some types are charged, and no others. -/
def Charged (r : Resource) (ip : Inode) (change : ℤ) (is : List QuotaType) (t t' : Table) : Prop :=
  ∀ d, (t' d).dq_cnt = (t d).dq_cnt ∧ ∀ r', count t' d r' =
    if r' = r ∧ d.1 ∈ is ∧ ip.i_dquot d.1 = some d.2 then moved change (count t d r) else count t d r'

theorem Charged.cons {i : QuotaType} {is : List QuotaType} {id : u_int} {u : Usage} {t' : Table}
    (hid : ip.i_dquot i = some id) (hi : i ∉ is) (hu : u.cur = moved change (count t (i, id) r))
    (h : Charged r ip change is (setUsage t (i, id) r u) t') : Charged r ip change (i :: is) t t' := by
  intro d
  obtain ⟨hcnt, hcount⟩ := h d
  refine ⟨hcnt.trans cnt_setUsage, fun r' => ?_⟩
  rw [hcount r', count_setUsage, count_setUsage]
  by_cases hd : d = (i, id)
  · subst hd
    simp [hid, hi, hu]
  · by_cases hdi : d.1 = i
    · have hne : ip.i_dquot d.1 ≠ some d.2 := by
        intro h
        rw [hdi, hid] at h
        exact hd (Prod.ext hdi (Option.some.inj h).symm)
      simp [hd, hne]
    · simp [hd, hdi]

theorem Charged.skip {i : QuotaType} {t' : Table} (hid : ip.i_dquot i = none) (h : Charged r ip change is t t') :
    Charged r ip change (i :: is) t t' := by
  intro d
  obtain ⟨hcnt, hcount⟩ := h d
  refine ⟨hcnt, fun r' => ?_⟩
  rw [hcount r']
  by_cases hdi : d.1 = i
  · simp [hdi, hid]
  · simp [hdi]

theorem chkLoop_ok {t' : Table} (his : is.Nodup) (h : chkLoop m sec cred r ip change force is done t = (none, t')) :
    Charged r ip change is t t' := by
  induction is generalizing done t with
  | nil =>
    cases h
    exact fun d => ⟨rfl, fun r' => by simp⟩
  | cons i is ih =>
    obtain ⟨hi, his⟩ := List.nodup_cons.mp his
    cases hid : ip.i_dquot i with
    | none => exact (ih his (chkLoop_none hid ▸ h)).skip hid
    | some id =>
      obtain ⟨u, hu, h⟩ | ⟨e, u, hnone, -⟩ := chkLoop_some hid h
      · exact (ih his h).cons hid hi hu.cur
      · cases hnone

end Loop

section Chk

variable {m : Mount} {sec : ℤ} {cred : Cred} {r : Resource} {ip : Inode} {change : ℤ} {force : Bool}
  {t t' : Table}

theorem quotaTypes_nodup : quotaTypes.Nodup := by decide

theorem mem_quotaTypes (i : QuotaType) : i ∈ quotaTypes := by
  cases i <;> decide

theorem chk_error {e : ℕ} (h : chk m sec cred r ip change force t = (some e, t')) : SameCounts t' t := by
  unfold chk at h
  split at h
  · split at h
    · cases h
    · exact chkLoop_error h
  · cases h

theorem chk_ok (hm : m.m_quota = true)
    (h : chk m sec cred r ip change force t = (none, t')) : Charged r ip change quotaTypes t t' := by
  unfold chk at h
  rw [if_pos hm] at h
  split at h
  · rename_i hzero
    cases h
    intro d
    refine ⟨rfl, fun r' => ?_⟩
    split
    · rename_i hcond
      rw [hcond.1, hzero]
      simp [moved]
    · rfl
  · exact chkLoop_ok quotaTypes_nodup h

theorem chk_release (hneg : change < 0) : (chk m sec cred r ip change force t).1 = none := by
  unfold chk
  split
  · split
    · rfl
    · exact chkLoop_release hneg
  · rfl

end Chk

end Charges

end Osf1.Quota
