import Osf1.Computation.Transition
import Osf1.Vgsa.Model

/-!
# What `lv_sa_continue` does first

The quorum check, the hold list, the configuration operation and the new sequence number, each
with what it changes.
-/

set_option autoImplicit false

namespace Osf1.Vgsa

open List

section Process

variable {vg : Volgrp} {pb : Pbuf} {as as' : List Active} {a : Active} {idx old : ℕ}

theorem lvSaQrmcheck_eq (vg : Volgrp) :
    lvSaQrmcheck vg = { vg with lostQuorum := (lvSaQrmcheck vg).lostQuorum } := by
  unfold lvSaQrmcheck
  split <;> rfl

theorem lvSaMove_eq (vg : Volgrp) (pb : Pbuf) :
    lvSaMove vg pb =
      { vg with saActive := (lvSaMove vg pb).saActive, sa := (lvSaMove vg pb).sa } := by
  unfold lvSaMove
  split <;> rfl

theorem foldl_lvSaMove_eq (vg : Volgrp) (l : List Pbuf) :
    l.foldl lvSaMove vg =
      { vg with saActive := (l.foldl lvSaMove vg).saActive, sa := (l.foldl lvSaMove vg).sa } := by
  induction l generalizing vg with
  | nil => rfl
  | cons pb l ih =>
    rw [foldl_cons, ih, lvSaMove_eq]

theorem lvSaHold_eq (vg : Volgrp) :
    lvSaHold vg =
      { vg with saHold := [], saActive := (lvSaHold vg).saActive, sa := (lvSaHold vg).sa } := by
  unfold lvSaHold
  rw [foldl_lvSaMove_eq]

theorem lvSaConfApply_eq (vg : Volgrp) :
    lvSaConfApply vg =
      { vg with pvols := (lvSaConfApply vg).pvols, sa := (lvSaConfApply vg).sa } := by
  unfold lvSaConfApply
  split <;> rfl

theorem pvols_lvSaConfApply (vg : Volgrp) :
    (lvSaConfApply vg).pvols =
      match vg.saConfOp with
      | .pvmissing pvnum => (pvMissing vg pvnum).pvols
      | _ => vg.pvols := by
  unfold lvSaConfApply
  split <;> simp_all

theorem isPlace_pvMissing {pvnum : ℕ} : (pvMissing vg pvnum).IsPlace idx ↔ vg.IsPlace idx ∧ idx / 2 ≠ pvnum := by
  unfold Volgrp.IsPlace Volgrp.pvolAt pvMissing
  rw [getElem?_modify]
  rcases eq_or_ne pvnum (idx / 2) with rfl | hne
  · cases vg.pvols[idx / 2]? with
    | none => simp
    | some o => cases o <;> simp
  · simp [hne, Ne.symm hne]

theorem isPlace_lvSaConfApply :
    (lvSaConfApply vg).IsPlace idx ↔ vg.IsPlace idx ∧ vg.saConfOp ≠ .pvmissing (idx / 2) := by
  cases hop : vg.saConfOp with
  | pvmissing pvnum =>
    have heq : lvSaConfApply vg = pvMissing vg pvnum := by
      unfold lvSaConfApply
      rw [hop]
    rw [heq, isPlace_pvMissing]
    simp [eq_comm]
  | _ =>
    have heq : (lvSaConfApply vg).pvols = vg.pvols := by
      rw [pvols_lvSaConfApply, hop]
    rw [isPlace_congr heq]
    simp

/-- Whether something is new, so that the status area has to be written. -/
def Volgrp.renewed (vg : Volgrp) (old : ℕ) : Bool := decide (old < vg.saActive.length) || vg.saConfOp.pending

/-- The sequence number that is given to what is new. -/
def Volgrp.nextSeqnum (vg : Volgrp) (old : ℕ) : ℤ :=
  if vg.renewed old then (vg.saSeqnum + 1).bmod (2 ^ 32) else vg.saSeqnum

theorem lvSaStamp_eq (old : ℕ) (vg : Volgrp) :
    lvSaStamp old vg =
      { vg with
        saSeqnum := vg.nextSeqnum old
        saConfSeq := if vg.saConfOp.pending then vg.nextSeqnum old else vg.saConfSeq
        saConfOp := if vg.saConfOp.pending then .inprogress else vg.saConfOp
        saActive := vg.saActive.take old ++
          (vg.saActive.drop old).map fun a => { a with seqnum := vg.nextSeqnum old } } := by
  unfold lvSaStamp Volgrp.nextSeqnum Volgrp.renewed lvSaUpdate
  by_cases hnew : old < vg.saActive.length <;> cases vg.saConfOp.pending <;> simp [hnew]

theorem lostQuorum_lvSaProcess (vg : Volgrp) : (lvSaProcess vg).lostQuorum = (lvSaQrmcheck vg).lostQuorum := by
  rw [lvSaProcess, lvSaStamp_eq, lvSaConfApply_eq, lvSaHold_eq]

theorem isPlace_lvSaProcess :
    (lvSaProcess vg).IsPlace idx ↔ vg.IsPlace idx ∧ vg.saConfOp ≠ .pvmissing (idx / 2) := by
  have hpvols : (lvSaProcess vg).pvols = (lvSaConfApply (lvSaHold (lvSaQrmcheck vg))).pvols := by
    rw [lvSaProcess, lvSaStamp_eq]
  have hhold : (lvSaHold (lvSaQrmcheck vg)).pvols = vg.pvols := by
    rw [lvSaHold_eq, lvSaQrmcheck_eq]
  have hop : (lvSaHold (lvSaQrmcheck vg)).saConfOp = vg.saConfOp := by
    rw [lvSaHold_eq, lvSaQrmcheck_eq]
  rw [isPlace_congr hpvols, isPlace_lvSaConfApply, isPlace_congr hhold, hop]

end Process

/-!
## The requests that are suspended

A request waits on the hold list, on the active list or behind an active request.  Processing the
hold list loses none of them.
-/

section Requests

variable {vg : Volgrp} {pb : Pbuf} {as as' : List Active} {a : Active}

/-- A request on the active list and those behind it. -/
def Active.members (a : Active) : List Pbuf := a.head :: a.chain

/-- All the requests that wait. -/
def Volgrp.suspended (vg : Volgrp) : List Pbuf := vg.saHold ++ vg.saActive.flatMap Active.members

theorem putBehind_eq_some (h : vg.putBehind pb as = some as') :
    ∃ l a r, as = l ++ a :: r ∧ as' = l ++ { a with chain := pb :: a.chain } :: r ∧
      vg.coalesces a.head pb = true := by
  induction as generalizing as' with
  | nil => cases h
  | cons a as ih =>
    rw [Volgrp.putBehind] at h
    split at h
    case isTrue hsame =>
      cases h
      exact ⟨[], a, as, rfl, rfl, hsame⟩
    case isFalse =>
      obtain ⟨as₁, has₁, rfl⟩ := Option.map_eq_some_iff.mp h
      obtain ⟨l, b, r, rfl, rfl, hsame⟩ := ih has₁
      exact ⟨a :: l, b, r, rfl, rfl, hsame⟩

theorem lvSaMove_cases (vg : Volgrp) (pb : Pbuf) :
    (∃ l a r, vg.saActive = l ++ a :: r ∧ vg.coalesces a.head pb = true ∧
      lvSaMove vg pb = { vg with saActive := l ++ { a with chain := pb :: a.chain } :: r }) ∨
    lvSaMove vg pb =
      { vg with
        saActive := vg.saActive ++ [⟨pb, [], 0⟩]
        sa := { vg.sa with pxstale := markBits vg.sa.pxstale (vg.names pb) pb.stale } } := by
  unfold lvSaMove
  split
  case h_1 active hactive =>
    obtain ⟨l, a, r, has, rfl, hsame⟩ := putBehind_eq_some hactive
    exact .inl ⟨l, a, r, has, hsame, rfl⟩
  case h_2 => exact .inr rfl

theorem members_lvSaMove (vg : Volgrp) (pb : Pbuf) :
    ((lvSaMove vg pb).saActive.flatMap Active.members).Perm
      (pb :: vg.saActive.flatMap Active.members) := by
  obtain ⟨l, a, r, has, -, heq⟩ | heq := lvSaMove_cases vg pb
  · rw [heq, has]
    simp only [flatMap_append, flatMap_cons, Active.members, cons_append]
    have hhead : (a.head :: pb :: (a.chain ++ r.flatMap Active.members)).Perm
        (pb :: a.head :: (a.chain ++ r.flatMap Active.members)) := List.Perm.swap _ _ _
    exact (hhead.append_left _).trans perm_middle
  · rw [heq]
    simp only [flatMap_append, flatMap_singleton, Active.members]
    exact perm_append_singleton _ _

theorem members_foldl_lvSaMove (vg : Volgrp) (l : List Pbuf) :
    ((l.foldl lvSaMove vg).saActive.flatMap Active.members).Perm
      (l ++ vg.saActive.flatMap Active.members) := by
  induction l generalizing vg with
  | nil => exact .refl _
  | cons pb l ih =>
    refine (ih _).trans ?_
    exact ((members_lvSaMove vg pb).append_left l).trans perm_middle

theorem members_stamp (old : ℕ) (seqnum : ℤ) (as : List Active) :
    (as.take old ++ (as.drop old).map fun a : Active => { a with seqnum := seqnum }).flatMap
        Active.members =
      as.flatMap Active.members := by
  rw [flatMap_append, flatMap_map]
  change (as.take old).flatMap Active.members ++ (as.drop old).flatMap Active.members = _
  rw [← flatMap_append, take_append_drop]

theorem members_lvSaProcess (vg : Volgrp) :
    ((lvSaProcess vg).saActive.flatMap Active.members).Perm vg.suspended := by
  rw [lvSaProcess, lvSaStamp_eq, members_stamp, lvSaConfApply_eq]
  have hfold := members_foldl_lvSaMove { vg with
    lostQuorum := (lvSaQrmcheck vg).lostQuorum, saHold := [] } vg.saHold
  rw [lvSaQrmcheck_eq]
  exact hfold

theorem saHold_lvSaProcess (vg : Volgrp) : (lvSaProcess vg).saHold = [] := by
  rw [lvSaProcess, lvSaStamp_eq, lvSaConfApply_eq, lvSaHold_eq]

theorem saConfOp_lvSaProcess (vg : Volgrp) :
    (lvSaProcess vg).saConfOp = if vg.saConfOp.pending then .inprogress else vg.saConfOp := by
  rw [lvSaProcess, lvSaStamp_eq, lvSaConfApply_eq, lvSaHold_eq, lvSaQrmcheck_eq]

theorem saConfOp_lvSaProcess_eq_nop : (lvSaProcess vg).saConfOp = .nop ↔ vg.saConfOp = .nop := by
  rw [saConfOp_lvSaProcess]
  cases vg.saConfOp <;> simp [ConfOp.pending]

end Requests

/-!
## Runs of the wheel

Requests, configuration operations and writes that are done or fail come in any order.  A piece of
the code that runs under the lock is one step.
-/

section System

open Osf1.Computation

/-- `enter` is `lv_sa_continue`, with a bound for the search of `lv_sa_whladv`; where the search
goes on beyond it there is no step. -/
inductive Event where
  | start (pb : Pbuf)
  | config (op : ConfOp)
  | enter (fuel : ℕ)
  | iodone (error : Bool)
  | attach (pvnum : ℕ) (pv : Pvol)

/-- A caller of `lv_sa_config` has the lock of the volume group until it returns. -/
def step (vg : Volgrp) : Event → Option Turn
  | .start pb => some ⟨lvSaStart vg pb, [], false⟩
  | .config op =>
    if vg.saConfOp = .nop ∧ op.pending then
      match lvSaConfig vg op with
      | .inl vg' => some ⟨vg', [], false⟩
      | .inr _ => some ⟨vg, [], false⟩
    else none
  | .enter fuel => if vg.saState = .continuing then lvSaContinue fuel vg else none
  | .iodone error =>
    if vg.saState = .writing then some ⟨lvSaIodone vg error, [], false⟩ else none
  | .attach pvnum pv =>
    if pvnum < vg.pvols.length ∧ (vg.pvols[pvnum]?.join).all Pvol.missing then
      some ⟨attach vg pvnum pv, [], false⟩
    else none

/-- What `lv_sa_initvgsa` leaves, with volumes that `lv_pvol_linit` has filled in.
SRC: lvm/lv_vgsa.c:147-153, lvm/lv_subr.c:439-443 -/
structure Volgrp.Init (vg : Volgrp) : Prop where
  saState : vg.saState = .stopped
  saHold : vg.saHold = []
  saActive : vg.saActive = []
  saSeqnum : vg.saSeqnum = 0
  saConfOp : vg.saConfOp = .nop
  stamps : ∀ idx, vg.saSeqnumAt idx = -1

/-- The runs from a group. -/
def wheel (vg₀ : Volgrp) : System Volgrp Event := System.ofFun vg₀ fun vg e => (step vg e).map Turn.vg

/-- A request for a logical block whose first mirror becomes stale.  Its own block is the first
one of a volume. -/
def stalePbuf (lbBlkno : BitVec 32) : Pbuf where
  type := .stalepx
  lv := 0
  lbBlkno := lbBlkno
  blkno := 0
  mirbad := {0}
  mirdone := ∅

end System

/-!
## The invariant of the wheel

What an active request names is marked in the status area, and it is on each place that has been
written since the request became active.  These places are the last ones that the wheel comes to.
-/

section Invariant

open Osf1.Computation

variable {vg wg : Volgrp} {pb q : Pbuf} {a : Active} {op : ConfOp} {idx : ℕ}

/-- The bits are set, or they are clear. -/
def Shows (sa : StatusArea) (bits : List ℕ) (stale : Bool) : Prop := ∀ b ∈ bits, sa.pxstale b = stale

/-- Each place has last been written with a status area that has the bits of the request. -/
def OnDisk (vg : Volgrp) (pb : Pbuf) : Prop :=
  ∀ idx, vg.IsPlace idx → ∃ sa, vg.written idx = some sa ∧ Shows sa (vg.names pb) pb.stale

/-- A request that comes after another one: if it is put behind it then it names no other bits,
and if it is of the other kind then it names none of its bits. -/
def Agrees (vg : Volgrp) (q pb : Pbuf) : Prop :=
  (vg.coalesces q pb = true → vg.names pb ⊆ vg.names q) ∧ (q.stale ≠ pb.stale → (vg.names q).Disjoint (vg.names pb))

/-- The operation does not undo what the request does. -/
def AgreesConf (vg : Volgrp) (pb : Pbuf) : ConfOp → Prop
  | .freshpx l => pb.stale = true → (vg.names pb).Disjoint (l.map vg.pxbit)
  | .stalepx l => pb.stale = false → (vg.names pb).Disjoint (l.map vg.pxbit)
  | _ => True

/-- The requests that other requests can be put behind, now or when they are active. -/
def Volgrp.waiting (vg : Volgrp) : List Pbuf := vg.saActive.map Active.head ++ vg.saHold

/-- The place that the wheel comes to first. -/
def Volgrp.front (vg : Volgrp) : ℕ :=
  if vg.saState = .writing then vg.saWheel else vg.saWheel + 1

/-- The request is in the status area. -/
structure Marked (vg : Volgrp) (a : Active) : Prop where
  head : Shows vg.sa (vg.names a.head) a.head.stale
  chain : ∀ pb ∈ a.chain, pb.stale = a.head.stale ∧ vg.names pb ⊆ vg.names a.head

/-- A request with sequence number `s` is on the places that are written since, and these are the
last ones from `c` on. -/
structure Swept (vg : Volgrp) (c : ℕ) (pb : Pbuf) (s : ℤ) : Prop where
  nonneg : 0 ≤ s
  le : s ≤ vg.saSeqnum
  written : ∀ idx, vg.IsPlace idx → s ≤ vg.saSeqnumAt idx →
    ∃ sa, vg.written idx = some sa ∧ Shows sa (vg.names pb) pb.stale
  trailing : Trailing vg.IsPlace vg.saSeqnumAt s c

/-- The invariant. -/
structure Inv (vg : Volgrp) : Prop where
  nonneg : 0 ≤ vg.saSeqnum
  stamps : ∀ idx, vg.saSeqnumAt idx ≤ vg.saSeqnum
  marked : ∀ a ∈ vg.saActive, Marked vg a
  swept : ∀ a ∈ vg.saActive, Swept vg vg.front a.head a.seqnum
  waiting : vg.waiting.Pairwise (Agrees vg)
  conf : ∀ pb ∈ vg.waiting, AgreesConf vg pb vg.saConfOp
  atRest : vg.saState = .stopped → vg.saActive = []
  atPlace : vg.saState = .writing → vg.IsPlace vg.saWheel

/-- The steps that keep the wheel in order.  The sequence number does not run over; a request
agrees with those that wait and with the operation, and an operation with the requests that wait;
and the wheel comes to the places of a volume that is attached before it comes to one that has the
update of an active request. -/
def Orderly (vg : Volgrp) : Event → Prop
  | .start pb => (∀ q ∈ vg.waiting, Agrees vg q pb) ∧ AgreesConf vg pb vg.saConfOp
  | .config op => ∀ q ∈ vg.waiting, AgreesConf vg q op
  | .enter _ | .iodone _ => vg.saSeqnum + 1 < 2 ^ 31
  | .attach pvnum pv =>
    ∀ a ∈ vg.saActive, ∀ l m, l / 2 = pvnum → pv.saPsn (Fin.ofNat 2 l) ≠ 0 → vg.IsPlace m →
      a.seqnum ≤ vg.saSeqnumAt m → NoLater vg.front l m

theorem markBits_apply (px : ℕ → Bool) (bits : List ℕ) (stale : Bool) (b : ℕ) :
    markBits px bits stale b = if b ∈ bits then stale else px b := by
  unfold markBits
  induction bits generalizing px with
  | nil => simp
  | cons c bits ih =>
    rw [foldl_cons, ih]
    by_cases hb : b ∈ bits
    · simp [hb]
    · rcases eq_or_ne b c with rfl | hne
      · simp
      · simp [hb, hne]

theorem Shows.mark {sa : StatusArea} {bits bits' : List ℕ} {stale stale' : Bool}
    (h : Shows sa bits stale) (hapart : stale ≠ stale' → bits.Disjoint bits') :
    Shows { sa with pxstale := markBits sa.pxstale bits' stale' } bits stale := by
  intro b hb
  show markBits sa.pxstale bits' stale' b = stale
  rw [markBits_apply]
  split
  case isTrue hb' =>
    by_contra hne
    exact hapart (Ne.symm hne) hb hb'
  case isFalse => exact h b hb

theorem shows_mark (sa : StatusArea) (bits : List ℕ) (stale : Bool) :
    Shows { sa with pxstale := markBits sa.pxstale bits stale } bits stale := by
  intro b hb
  show markBits sa.pxstale bits stale b = stale
  rw [markBits_apply, if_pos hb]

theorem stale_eq_of_coalesces (h : vg.coalesces q pb = true) : pb.stale = q.stale := by
  unfold Volgrp.coalesces at h
  unfold Pbuf.stale
  split at h
  case h_1 hq hpb => rw [hq, hpb]
  case h_2 => cases h

theorem Inv.of_init (h : vg.Init) : Inv vg where
  nonneg := h.saSeqnum.ge
  stamps idx := by
    rw [h.stamps, h.saSeqnum]
    decide
  marked a ha := by
    rw [h.saActive] at ha
    cases ha
  swept a ha := by
    rw [h.saActive] at ha
    cases ha
  waiting := by
    rw [Volgrp.waiting, h.saActive, h.saHold]
    exact .nil
  conf pb hpb := by
    rw [h.saConfOp]
    trivial
  atRest _ := h.saActive
  atPlace hwriting := by
    rw [h.saState] at hwriting
    cases hwriting

theorem front_roll (hstate : wg.saState = vg.saState.roll) (hwheel : wg.saWheel = vg.saWheel) :
    wg.front = vg.front := by
  unfold Volgrp.front
  rw [hstate, hwheel]
  cases vg.saState <;> rfl

theorem roll_eq_writing {st : SaState} (h : st.roll = .writing) : st = .writing := by
  cases st <;> first | rfl | cases h

theorem roll_ne_stopped (st : SaState) : st.roll ≠ .stopped := by
  cases st <;> decide

theorem Inv.start (h : Inv vg) (hok : Orderly vg (.start pb)) : Inv (lvSaStart vg pb) := by
  have hfront : (lvSaStart vg pb).front = vg.front := front_roll rfl rfl
  have hwaiting : (lvSaStart vg pb).waiting = vg.waiting ++ [pb] := (append_assoc _ _ _).symm
  exact
    { nonneg := h.nonneg
      stamps := h.stamps
      marked a ha := ⟨(h.marked a ha).head, (h.marked a ha).chain⟩
      swept a ha := by
        have hswept := h.swept a ha
        rw [hfront]
        exact ⟨hswept.nonneg, hswept.le, hswept.written, hswept.trailing⟩
      waiting := by
        rw [hwaiting]
        refine pairwise_append.mpr ⟨h.waiting, pairwise_singleton _ _, ?_⟩
        intro q hq pb' hpb'
        rw [mem_singleton.mp hpb']
        exact hok.1 q hq
      conf q hq := by
        rw [hwaiting] at hq
        rcases mem_append.mp hq with hq | hq
        · exact h.conf q hq
        · rw [mem_singleton.mp hq]
          exact hok.2
      atRest hrest := absurd hrest (roll_ne_stopped _)
      atPlace hwriting := h.atPlace (roll_eq_writing hwriting) }

theorem Inv.config (h : Inv vg) (hok : Orderly vg (.config op)) :
    Inv { vg with saConfOp := op, saState := vg.saState.roll } := by
  have hfront : ({ vg with saConfOp := op, saState := vg.saState.roll } : Volgrp).front =
      vg.front := front_roll rfl rfl
  exact
    { nonneg := h.nonneg
      stamps := h.stamps
      marked a ha := ⟨(h.marked a ha).head, (h.marked a ha).chain⟩
      swept a ha := by
        have hswept := h.swept a ha
        rw [hfront]
        exact ⟨hswept.nonneg, hswept.le, hswept.written, hswept.trailing⟩
      waiting := h.waiting
      conf := hok
      atRest hrest := absurd hrest (roll_ne_stopped _)
      atPlace hwriting := h.atPlace (roll_eq_writing hwriting) }

end Invariant

end Osf1.Vgsa
