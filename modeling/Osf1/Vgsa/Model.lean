import Osf1.Computation.Queues
import Osf1.Errno
import Osf1.Lvm.Schedule

/-!
# The status area wheel: the code of `lv_vgsa.c`

The status area of a volume group says which volumes are missing and which physical extents are
stale.  There are two places for it on each volume.  A request that changes it waits until the
wheel has come round, that is until the changed status area is written to each of the places.
-/

set_option autoImplicit false

namespace Osf1.Vgsa

open Function

section Model

open Osf1.Lvm (Mirror Mask)

/-- SRC: lvm/vgsa.h:146-147 -/
inductive RequestType where
  | stalepx
  | freshpx
  deriving DecidableEq

/-- A physical request.  `lbBlkno` is the block of its logical buffer, `blkno` its own block.
SRC: lvm/lvmd.h:132-155 -/
structure Pbuf where
  type : RequestType
  lv : ℕ
  lbBlkno : BitVec 32
  blkno : BitVec 32
  mirbad : Mask
  mirdone : Mask
  deriving DecidableEq

/-- A request on the active list and the requests on its `av_back`. -/
structure Active where
  head : Pbuf
  chain : List Pbuf
  seqnum : ℤ
  deriving DecidableEq

/-- `missing` is `LVM_PVMISSING`, `novgda` is `LVM_NOVGDA`.
SRC: lvm/lvmd.h:352-394 -/
structure Pvol where
  missing : Bool
  novgda : Bool
  saSeqnum : Fin 2 → ℤ
  saPsn : Fin 2 → ℕ

scoped instance area_pos : NeZero 2 := ⟨by decide⟩

/-- The status area: the bit of each volume and the bit of each physical extent.
SRC: lvm/vgsa.h:79-84 -/
structure StatusArea where
  pvmiss : ℕ → Bool
  pxstale : ℕ → Bool

/-- SRC: lvm/vgsa.h:125-130 -/
inductive ConfOp where
  | inprogress
  | nop
  | pvmissing (pvnum : ℕ)
  | installpv (pvnum : ℕ)
  | freshpx (pxInfo : List (ℕ × ℕ))
  | stalepx (pxInfo : List (ℕ × ℕ))
  | syncwrite
  deriving DecidableEq

/-- Whether the wheel is running, and what it waits for: that `lv_sa_continue` is entered, or
that a write is done.  `SA_ACTIVE` is off only when it is stopped. -/
inductive SaState where
  | stopped
  | continuing
  | writing
  deriving DecidableEq

/-- A volume group.  A volume is its number in `pvols`, and a place is a wheel index: twice the
number of its volume, and one more for the secondary.  `written` is what is on the disks: the last
status area that the wheel has written to each place.
SRC: lvm/lvmd.h:174-233 -/
structure Volgrp where
  pvols : List (Option Pvol)
  extshift : ℕ
  maxpxs : ℕ
  exts : ℕ → ℕ → Mirror → ℕ × ℕ
  lostQuorum : Bool
  saState : SaState
  sa : StatusArea
  saHold : List Pbuf
  saActive : List Active
  saWheel : ℕ
  saSeqnum : ℤ
  saConfOp : ConfOp
  saConfSeq : ℤ
  written : ℕ → Option StatusArea

/-- A call of `pb_sched`, and whether `pb_vgsa_failed` is set for it. -/
structure Done where
  pb : Pbuf
  vgsaFailed : Bool
  deriving DecidableEq

/-- What a piece of the code leaves: the group, the calls of `pb_sched`, and whether it wakes up
the caller of `lv_sa_config`. -/
structure Turn where
  vg : Volgrp
  calls : List Done
  wakeup : Bool

namespace Volgrp

/-- `vg->pvols[idx >> 1]` -/
def pvolAt (vg : Volgrp) (idx : ℕ) : Option Pvol := vg.pvols[idx / 2]?.join

/-- SRC: lvm/vgsa.h:107 -/
def saSeqnumAt (vg : Volgrp) (idx : ℕ) : ℤ :=
  ((vg.pvolAt idx).map fun pv => pv.saSeqnum (Fin.ofNat 2 idx)).getD (-1)

/-- SRC: lvm/lvmd.h:413 -/
def blk2ext (vg : Volgrp) (lbn : BitVec 32) : ℕ := (lbn >>> vg.extshift).toNat

/-- The number of the bit of a physical extent.
SRC: lvm/vgsa.h:94-99 -/
def pxbit (vg : Volgrp) (px : ℕ × ℕ) : ℕ := ((vg.maxpxs / 8) * px.1 + px.2 / 8) * 8 + px.2 % 8

end Volgrp

/-- Set or clear bits of the extents. -/
def markBits (pxstale : ℕ → Bool) (bits : List ℕ) (stale : Bool) : ℕ → Bool :=
  bits.foldl (fun px b => update px b stale) pxstale

/-- The mask whose extents a request marks. -/
def Pbuf.mirmask (pb : Pbuf) : Mask :=
  match pb.type with
  | .stalepx => pb.mirbad
  | .freshpx => pb.mirdone

/-- Whether a request sets its bits. -/
def Pbuf.stale (pb : Pbuf) : Bool := decide (pb.type = .stalepx)

/-- The bits that a request names.  `lxnum` is a `ushort_t`.
SRC: lvm/lv_vgsa.c:574-603 -/
def Volgrp.names (vg : Volgrp) (pb : Pbuf) : List ℕ :=
  let lxnum := vg.blk2ext pb.lbBlkno % 2 ^ 16
  pb.mirmask.mirrors.map fun mir => vg.pxbit (vg.exts pb.lv lxnum mir)

/-- The `eligible` volumes of `lv_sa_qrmcheck`. -/
def Volgrp.eligible (vg : Volgrp) : ℕ := vg.pvols.countP fun pv => pv.any fun pv => !pv.novgda

/-- The `active` volumes of `lv_sa_qrmcheck`. -/
def Volgrp.active (vg : Volgrp) : ℕ := vg.pvols.countP fun pv => pv.any fun pv => !pv.novgda && !pv.missing

/-- Check that quorum still exists.
SRC: lvm/lv_vgsa.c:955-982 -/
def lvSaQrmcheck (vg : Volgrp) : Volgrp :=
  if vg.active < (vg.eligible + 1) / 2 then { vg with lostQuorum := true } else vg

/-- Advance the wheel to the next valid place.  The loop has no other exit.
SRC: lvm/lv_vgsa.c:885-920 -/
def lvSaWhladv (vg : Volgrp) : ℕ → ℕ → Option ℕ
  | 0, _ => none
  | fuel + 1, idx =>
    let idx := if vg.pvols.length ≤ idx / 2 then 0 else idx
    match vg.pvolAt idx with
    | none => lvSaWhladv vg fuel (if idx % 2 = 1 then idx + 1 else idx + 2)
    | some pv =>
      if pv.missing then lvSaWhladv vg fuel (if idx % 2 = 1 then idx + 1 else idx + 2)
      else if pv.saPsn (Fin.ofNat 2 idx) ≠ 0 then some idx
      else lvSaWhladv vg fuel (idx + 1)

/-- Bump the wheel sequence, an `int`.
SRC: lvm/lv_vgsa.c:931-943 -/
def lvSaUpdate (vg : Volgrp) : Volgrp := { vg with saSeqnum := (vg.saSeqnum + 1).bmod (2 ^ 32) }

/-- Continue a request and those that hang off it.
SRC: lvm/lv_vgsa.c:850-870 -/
def lvSaDone (a : Active) (errno : ℕ) : List Done :=
  (a.head :: a.chain).map fun pb => ⟨pb, decide (errno ≠ ESUCCESS)⟩

/-- The test by which a request is put behind one on the active list.
SRC: lvm/lv_vgsa.c:532-560 -/
def Volgrp.coalesces (vg : Volgrp) (active pb : Pbuf) : Bool :=
  match active.type, pb.type with
  | .stalepx, .stalepx =>
    decide (active.lv = pb.lv ∧ vg.blk2ext active.blkno = vg.blk2ext pb.blkno ∧ pb.mirbad \ active.mirbad = ∅)
  | _, _ => false

/-- Scan the active list, and put the request behind the first one that does the same.
SRC: lvm/lv_vgsa.c:529-565, 830-837 -/
def Volgrp.putBehind (vg : Volgrp) (pb : Pbuf) : List Active → Option (List Active)
  | [] => none
  | a :: as =>
    if vg.coalesces a.head pb then some ({ a with chain := pb :: a.chain } :: as)
    else (vg.putBehind pb as).map (a :: ·)

/-- A request from the hold list goes behind an active one or to the end of the active list, and
then the status area is marked.  Its sequence number is set later.
SRC: lvm/lv_vgsa.c:529-609 -/
def lvSaMove (vg : Volgrp) (pb : Pbuf) : Volgrp :=
  match vg.putBehind pb vg.saActive with
  | some active => { vg with saActive := active }
  | none =>
    { vg with
      saActive := vg.saActive ++ [⟨pb, [], 0⟩]
      sa := { vg.sa with pxstale := markBits vg.sa.pxstale (vg.names pb) pb.stale } }

/-- Process the hold list. -/
def lvSaHold (vg : Volgrp) : Volgrp := vg.saHold.foldl lvSaMove { vg with saHold := [] }

/-- `pv->pv_flags |= LVM_PVMISSING`, and the bit of the volume. -/
def pvMissing (vg : Volgrp) (pvnum : ℕ) : Volgrp :=
  { vg with
    pvols := vg.pvols.modify pvnum (Option.map fun pv => { pv with missing := true })
    sa := { vg.sa with pvmiss := update vg.sa.pvmiss pvnum true } }

/-- Apply the configuration operation.
SRC: lvm/lv_vgsa.c:611-651 -/
def lvSaConfApply (vg : Volgrp) : Volgrp :=
  match vg.saConfOp with
  | .pvmissing pvnum => pvMissing vg pvnum
  | .installpv pvnum =>
    { vg with sa := { vg.sa with pvmiss := update vg.sa.pvmiss pvnum false } }
  | .freshpx l =>
    { vg with sa := { vg.sa with pxstale := markBits vg.sa.pxstale (l.map vg.pxbit) false } }
  | .stalepx l =>
    { vg with sa := { vg.sa with pxstale := markBits vg.sa.pxstale (l.map vg.pxbit) true } }
  | .syncwrite | .nop | .inprogress => vg

/-- `vg->vg_sa_conf_op > CNFG_NOP` -/
def ConfOp.pending : ConfOp → Bool
  | .inprogress | .nop => false
  | _ => true

/-- Bump the sequence number if there is something new, and give it to what is new: the requests
from place `old` of the active list on, and the configuration operation.
SRC: lvm/lv_vgsa.c:653-674 -/
def lvSaStamp (old : ℕ) (vg : Volgrp) : Volgrp :=
  let conf := vg.saConfOp.pending
  let vg := if old < vg.saActive.length ∨ conf then lvSaUpdate vg else vg
  { vg with
    saConfSeq := if conf then vg.saSeqnum else vg.saConfSeq
    saConfOp := if conf then .inprogress else vg.saConfOp
    saActive := vg.saActive.take old ++ (vg.saActive.drop old).map fun a => { a with seqnum := vg.saSeqnum } }

/-- What `lv_sa_continue` does before it looks whether quorum is lost.
SRC: lvm/lv_vgsa.c:514-676 -/
def lvSaProcess (vg : Volgrp) : Volgrp := lvSaStamp vg.saActive.length (lvSaConfApply (lvSaHold (lvSaQrmcheck vg)))

/-- Quorum is lost: each active request is continued as it is moved to `done_req`, and then
`done_req` is continued.
SRC: lvm/lv_vgsa.c:683-696 -/
def lvSaLost (vg : Volgrp) : Turn where
  vg := { vg with saActive := [], saState := .stopped }
  calls := vg.saActive.flatMap (lvSaDone · ENXIO) ++
    vg.saActive.flatMap fun a => lvSaDone { a with chain := [] } ENXIO
  wakeup := false

/-- The wheel comes to place `n`: the requests that are on all places are released, and if the
place has not the current sequence number, it is written.
SRC: lvm/lv_vgsa.c:704-753 -/
def lvSaTurn (vg : Volgrp) (n : ℕ) : Turn :=
  let seqnum := vg.saSeqnumAt n
  let confDone := decide (vg.saConfOp = .inprogress ∧ vg.saConfSeq ≤ seqnum)
  { vg := { vg with
      saActive := vg.saActive.dropWhile fun a => decide (a.seqnum ≤ seqnum)
      saConfOp := if confDone then .nop else vg.saConfOp
      saWheel := n
      saState := if seqnum < vg.saSeqnum then .writing else .stopped }
    calls := (vg.saActive.takeWhile fun a => decide (a.seqnum ≤ seqnum)).flatMap
      (lvSaDone · ESUCCESS)
    wakeup := confDone }

/-- Start the status area wheel, or take it on.
SRC: lvm/lv_vgsa.c:495-757 -/
def lvSaContinue (fuel : ℕ) (vg : Volgrp) : Option Turn :=
  let vg := lvSaProcess vg
  if vg.lostQuorum then some (lvSaLost vg)
  else (lvSaWhladv vg fuel (vg.saWheel + 1)).map (lvSaTurn vg)

/-- `SA_ACTIVE` is set, and if it was not, `lv_sa_continue` is to be entered. -/
def SaState.roll : SaState → SaState
  | .stopped => .continuing
  | st => st

/-- Place a request on the end of the hold list.
SRC: lvm/lv_vgsa.c:449-475 -/
def lvSaStart (vg : Volgrp) (pb : Pbuf) : Volgrp :=
  { vg with saHold := vg.saHold ++ [pb], saState := vg.saState.roll }

/-- The part of `lv_sa_config` before it waits.  It returns, or it goes on to wait.
SRC: lvm/lv_vgsa.c:390-422 -/
def lvSaConfig (vg : Volgrp) (op : ConfOp) : Volgrp ⊕ ℕ :=
  if vg.lostQuorum then .inr ENODEV
  else .inl { vg with saConfOp := op, saState := vg.saState.roll }

/-- The wait of `lv_sa_config`: what it returns, when it need not sleep any longer.
SRC: lvm/lv_vgsa.c:425-437 -/
def lvSaConfigWait (vg : Volgrp) : Option ℕ :=
  if vg.saConfOp ≠ .nop then none else some ESUCCESS

/-- `SA_SEQNUM(vg, vg->vg_sa_wheel) = vg->vg_sa_seqnum` -/
def setSaSeqnum (vg : Volgrp) (idx : ℕ) (seqnum : ℤ) : List (Option Pvol) :=
  vg.pvols.modify (idx / 2) (Option.map fun pv =>
    { pv with saSeqnum := update pv.saSeqnum (Fin.ofNat 2 idx) seqnum })

/-- The write of the status area is done.
SRC: lvm/lv_vgsa.c:793-818 -/
def lvSaIodone (vg : Volgrp) (error : Bool) : Volgrp :=
  let vg := { vg with saState := .continuing }
  if error then lvSaUpdate (pvMissing vg (vg.saWheel / 2))
  else
    { vg with
      pvols := setSaSeqnum vg vg.saWheel vg.saSeqnum
      written := update vg.written vg.saWheel (some vg.sa) }

/-- A volume is there that was not: its sequence numbers are -1, and it is not missing.
SRC: lvm/lv_ioctls.c:163-184, lvm/lv_subr.c:424-446 -/
def attach (vg : Volgrp) (pvnum : ℕ) (pv : Pvol) : Volgrp :=
  { vg with pvols := vg.pvols.set pvnum (some { pv with missing := false, saSeqnum := fun _ => -1 }) }

end Model

/-!
## The places of the wheel

A place counts when its volume is there and not missing and has a sector for it.  The search of
`lv_sa_whladv` finds the next one that counts, and it ends just when there is one.
-/

section Places

open Osf1.Computation

variable {vg wg : Volgrp} {idx n fuel : ℕ}

/-- The volume is not missing, and its `SA_PSN` is not zero. -/
def Volgrp.IsPlace (vg : Volgrp) (idx : ℕ) : Prop :=
  ∃ pv, vg.pvolAt idx = some pv ∧ pv.missing = false ∧ pv.saPsn (Fin.ofNat 2 idx) ≠ 0

theorem pvolAt_congr (h : vg.pvols = wg.pvols) : vg.pvolAt = wg.pvolAt := by
  funext idx
  unfold Volgrp.pvolAt
  rw [h]

theorem isPlace_congr (h : vg.pvols = wg.pvols) : vg.IsPlace = wg.IsPlace := by
  funext idx
  unfold Volgrp.IsPlace
  rw [pvolAt_congr h]

theorem saSeqnumAt_congr (h : vg.pvols = wg.pvols) : vg.saSeqnumAt = wg.saSeqnumAt := by
  funext idx
  unfold Volgrp.saSeqnumAt
  rw [pvolAt_congr h]

theorem IsPlace.lt (h : vg.IsPlace idx) : idx < 2 * vg.pvols.length := by
  obtain ⟨pv, hpv, -, -⟩ := h
  by_contra hle
  have hnone : vg.pvols[idx / 2]? = none := List.getElem?_eq_none (by omega)
  rw [Volgrp.pvolAt, hnone] at hpv
  cases hpv

theorem pvolAt_succ (h : idx % 2 ≠ 1) : vg.pvolAt (idx + 1) = vg.pvolAt idx := by
  unfold Volgrp.pvolAt
  rw [show (idx + 1) / 2 = idx / 2 by omega]

theorem NextPlace.skipVolume (h : ∀ pv, vg.pvolAt idx = some pv → pv.missing = true)
    (hn : NextPlace vg.IsPlace (if idx % 2 = 1 then idx + 1 else idx + 2) n) : NextPlace vg.IsPlace idx n := by
  have hnot : ¬ vg.IsPlace idx := by
    rintro ⟨pv, hpv, hmissing, -⟩
    rw [h pv hpv] at hmissing
    cases hmissing
  split at hn
  case isTrue => exact hn.skip hnot
  case isFalse heven =>
    have hnot' : ¬ vg.IsPlace (idx + 1) := by
      rintro ⟨pv, hpv, hmissing, -⟩
      rw [pvolAt_succ heven] at hpv
      rw [h pv hpv] at hmissing
      cases hmissing
    exact (hn.skip hnot').skip hnot

theorem nextPlace_of_whladv (h : lvSaWhladv vg fuel idx = some n) : NextPlace vg.IsPlace idx n := by
  induction fuel generalizing idx with
  | zero => cases h
  | succ fuel ih =>
    rw [lvSaWhladv] at h
    -- An index past the end is looked at as index 0.
    suffices hsuff : NextPlace vg.IsPlace (if vg.pvols.length ≤ idx / 2 then 0 else idx) n by
      split at hsuff
      case isTrue hend =>
        exact hsuff.wrap fun m hm => by have := IsPlace.lt hm; omega
      case isFalse => exact hsuff
    generalize (if vg.pvols.length ≤ idx / 2 then 0 else idx) = i at h ⊢
    split at h
    case h_1 hnone => exact NextPlace.skipVolume (by simp [hnone]) (ih h)
    case h_2 pv hpv =>
      split at h
      case isTrue hmissing =>
        refine NextPlace.skipVolume (fun q hq => ?_) (ih h)
        rw [hpv] at hq
        cases hq
        exact hmissing
      case isFalse hmissing =>
        split at h
        case isTrue hpsn =>
          cases h
          exact .refl ⟨pv, hpv, Bool.eq_false_of_not_eq_true hmissing, hpsn⟩
        case isFalse hpsn =>
          refine (ih h).skip ?_
          rintro ⟨q, hq, -, hq'⟩
          rw [hpv] at hq
          cases hq
          exact hpsn hq'

/-- How far the search is from a place. -/
def distance (vg : Volgrp) (m idx : ℕ) : ℕ :=
  if idx ≤ m then m - idx else (2 * vg.pvols.length - idx) + m + 1

theorem distance_succ (vg : Volgrp) {m i : ℕ} (hne : i ≠ m) (hlt : i < 2 * vg.pvols.length) :
    distance vg m (i + 1) < distance vg m i := by
  unfold distance
  split <;> split <;> omega

theorem distance_wrap {m : ℕ} (hm : m < 2 * vg.pvols.length) (idx : ℕ) :
    distance vg m (if vg.pvols.length ≤ idx / 2 then 0 else idx) ≤ distance vg m idx := by
  unfold distance
  split_ifs <;> omega

theorem whladv_ends {m : ℕ} (hm : vg.IsPlace m) (hfuel : distance vg m idx < fuel) :
    ∃ n, lvSaWhladv vg fuel idx = some n := by
  induction fuel generalizing idx with
  | zero => cases hfuel
  | succ fuel ih =>
    rw [lvSaWhladv]
    have hmlt := IsPlace.lt hm
    have hwrap := distance_wrap hmlt idx
    have hilt : (if vg.pvols.length ≤ idx / 2 then 0 else idx) < 2 * vg.pvols.length := by
      split <;> omega
    generalize (if vg.pvols.length ≤ idx / 2 then 0 else idx) = i at hwrap hilt ⊢
    obtain ⟨pvm, hpvm, hpresent, hpsn⟩ := hm
    -- A volume that is passed over is not that of `m`.
    have hskip (hgone : ∀ pv, vg.pvolAt i = some pv → pv.missing = true) :
        ∃ n, lvSaWhladv vg fuel (if i % 2 = 1 then i + 1 else i + 2) = some n := by
      have hne : i / 2 ≠ m / 2 := by
        intro heq
        have hat : vg.pvolAt i = some pvm := by
          rw [← hpvm, Volgrp.pvolAt, Volgrp.pvolAt, heq]
        rw [hgone pvm hat] at hpresent
        cases hpresent
      have hfirst : distance vg m (i + 1) < distance vg m i := distance_succ vg (by omega) hilt
      apply ih
      split
      case isTrue => omega
      case isFalse heven =>
        have hsecond : distance vg m (i + 2) < distance vg m (i + 1) := distance_succ vg (by omega) (by omega)
        omega
    split
    case h_1 hnone => exact hskip (by simp [hnone])
    case h_2 pv hpv =>
      split
      case isTrue hmissing =>
        refine hskip fun q hq => ?_
        rw [hpv] at hq
        cases hq
        exact hmissing
      case isFalse hmissing =>
        split
        case isTrue => exact ⟨i, rfl⟩
        case isFalse hzero =>
          have hne : i ≠ m := by
            rintro rfl
            rw [hpv] at hpvm
            cases hpvm
            exact hzero hpsn
          have hstep := distance_succ vg hne hilt
          exact ih (by omega)

theorem whladv_ends_iff : (∃ fuel n, lvSaWhladv vg fuel idx = some n) ↔ ∃ m, vg.IsPlace m := by
  constructor
  · rintro ⟨fuel, n, h⟩
    exact ⟨n, (nextPlace_of_whladv h).isPlace⟩
  · rintro ⟨m, hm⟩
    exact ⟨distance vg m idx + 1, whladv_ends hm (Nat.lt_succ_self _)⟩

end Places

end Osf1.Vgsa
