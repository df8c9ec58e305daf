import Osf1.Vgsa.System

/-!
# Loss of quorum

When quorum is lost, each request of the active list is continued twice: as it is moved to
`done_req`, and again as `done_req` is emptied.  The configuration operation stays in progress.
-/

set_option autoImplicit false

namespace Osf1.Vgsa

open List

section LostQuorum

variable {vg : Volgrp} {fuel : ℕ} {t : Turn}

/-- `lv_sa_continue` finds `VG_LOST_QUORUM`. -/
def FindsLost (vg : Volgrp) : Prop := (lvSaQrmcheck vg).lostQuorum = true

/-- Each request that waits is continued once with `pb_vgsa_failed`, the wheel is stopped, and a
caller that sleeps in `lv_sa_config` is woken up and returns `ENODEV`. -/
def CompletesOnce (vg : Volgrp) : Prop :=
  ∀ fuel t, lvSaContinue fuel vg = some t →
    t.calls.Perm (vg.suspended.map (⟨·, true⟩)) ∧ t.vg.saState = .stopped ∧
      (vg.saConfOp ≠ .nop → t.wakeup = true ∧ lvSaConfigWait t.vg = some ENODEV)

/-- The requests at the head of the active list, when the hold list is processed. -/
def Volgrp.heads (vg : Volgrp) : List Pbuf := (lvSaProcess vg).saActive.map Active.head

theorem lvSaContinue_of_findsLost (h : FindsLost vg) : lvSaContinue fuel vg = some (lvSaLost (lvSaProcess vg)) := by
  have hlost : (lvSaProcess vg).lostQuorum = true := by
    rw [lostQuorum_lvSaProcess]
    exact h
  unfold lvSaContinue
  simp [hlost]

theorem calls_lvSaLost (vg : Volgrp) :
    (lvSaLost (lvSaProcess vg)).calls.Perm ((vg.suspended ++ vg.heads).map (⟨·, true⟩)) := by
  have hmembers := (members_lvSaProcess vg).map fun pb => Done.mk pb true
  rw [map_flatMap] at hmembers
  have hheads : ((lvSaProcess vg).saActive.flatMap fun a =>
      lvSaDone { a with chain := [] } ENXIO) = vg.heads.map (⟨·, true⟩) := by
    unfold Volgrp.heads
    rw [map_map, map_eq_flatMap]
    rfl
  rw [map_append]
  unfold lvSaLost
  rw [hheads]
  exact hmembers.append_right _

theorem heads_eq_nil : vg.heads = [] ↔ vg.saHold = [] ∧ vg.saActive = [] := by
  have hmembers := members_lvSaProcess vg
  constructor
  · intro h
    rw [Volgrp.heads, map_eq_nil_iff] at h
    rw [h, flatMap_nil] at hmembers
    have hnil := hmembers.nil_eq
    obtain ⟨hhold, hactive⟩ := append_eq_nil_iff.mp hnil.symm
    refine ⟨hhold, ?_⟩
    cases hact : vg.saActive with
    | nil => rfl
    | cons a as =>
      rw [hact] at hactive
      cases hactive
  · rintro ⟨hhold, hactive⟩
    have hnone : vg.suspended = [] := by
      rw [Volgrp.suspended, hhold, hactive]
      rfl
    rw [hnone] at hmembers
    rw [Volgrp.heads, map_eq_nil_iff]
    cases hact : (lvSaProcess vg).saActive with
    | nil => rfl
    | cons a as =>
      rw [hact] at hmembers
      cases hmembers.eq_nil

theorem lvSaConfigWait_lvSaLost (h : vg.saConfOp ≠ .nop) :
    lvSaConfigWait (lvSaLost (lvSaProcess vg)).vg = none := by
  have hop : (lvSaProcess vg).saConfOp ≠ .nop := fun heq =>
    h (saConfOp_lvSaProcess_eq_nop.mp heq)
  exact if_pos hop

/-- Loss of quorum completes everything once just when there is nothing to complete. -/
theorem lost_completes_once (h : FindsLost vg) :
    CompletesOnce vg ↔ vg.saHold = [] ∧ vg.saActive = [] ∧ vg.saConfOp = .nop := by
  have hcalls := calls_lvSaLost vg
  constructor
  · intro honce
    obtain ⟨hperm, -, hsleeper⟩ := honce 0 _ (lvSaContinue_of_findsLost h)
    have hlength := (hcalls.symm.trans hperm).length_eq
    simp only [length_map, length_append] at hlength
    have hheads : vg.heads = [] := length_eq_zero_iff.mp (by omega)
    obtain ⟨hhold, hactive⟩ := heads_eq_nil.mp hheads
    refine ⟨hhold, hactive, ?_⟩
    by_contra hop
    have hwait := (hsleeper hop).2
    rw [lvSaConfigWait_lvSaLost hop] at hwait
    cases hwait
  · rintro ⟨hhold, hactive, hop⟩ fuel t ht
    rw [lvSaContinue_of_findsLost h] at ht
    cases ht
    rw [heads_eq_nil.mpr ⟨hhold, hactive⟩, append_nil] at hcalls
    exact ⟨hcalls, rfl, fun hne => absurd hop hne⟩

/-- A group whose only volume is missing. -/
def goneGroup : Volgrp where
  pvols := [some ⟨true, false, fun _ => -1, fun _ => 8⟩]
  extshift := 3
  maxpxs := 8
  exts _ lxnum _ := (0, lxnum)
  lostQuorum := false
  saState := .stopped
  sa := ⟨fun _ => true, fun _ => false⟩
  saHold := []
  saActive := []
  saWheel := 0
  saSeqnum := 0
  saConfOp := .nop
  saConfSeq := 0
  written _ := none

/-- Where nothing waits, everything is complete. -/
theorem gone_completes_once : FindsLost goneGroup ∧ CompletesOnce goneGroup := by
  have hlost : FindsLost goneGroup := rfl
  exact ⟨hlost, (lost_completes_once hlost).mpr ⟨rfl, rfl, rfl⟩⟩

/-- The group, a request that it gets when it is at rest, and an operation that it gets then. -/
theorem gone_completes_twice :
    ((wheel goneGroup).Reachable (lvSaStart goneGroup (stalePbuf 0)) ∧
      FindsLost (lvSaStart goneGroup (stalePbuf 0)) ∧ ¬ CompletesOnce (lvSaStart goneGroup (stalePbuf 0))) ∧
      (wheel goneGroup).Reachable { goneGroup with
        saConfOp := .syncwrite, saState := .continuing } ∧
        FindsLost { goneGroup with saConfOp := .syncwrite, saState := .continuing } ∧
          ¬ CompletesOnce { goneGroup with saConfOp := .syncwrite, saState := .continuing } := by
  refine ⟨⟨.step (i := .start (stalePbuf 0)) (.init rfl) rfl, rfl, ?_⟩,
    .step (i := .config .syncwrite) (.init rfl) rfl, rfl, ?_⟩
  · intro honce
    have hperm := (honce 0 _ (lvSaContinue_of_findsLost rfl)).1
    exact absurd hperm.length_eq (by decide)
  · intro honce
    have hwait := ((honce 0 _ (lvSaContinue_of_findsLost rfl)).2.2 (by decide)).2
    cases hwait

end LostQuorum

/-!
## Quorum and the search for the next place

The check takes exactly half of the eligible volumes for enough.
-/

section Quorum

open Osf1.Computation

variable {vg wg : Volgrp}

/-- The check leaves quorum. -/
def HasQuorum (vg : Volgrp) : Prop := (lvSaQrmcheck vg).lostQuorum = false

/-- If the check leaves quorum, then more than half of the eligible volumes are present. -/
def MajorityKept (vg : Volgrp) : Prop := HasQuorum vg → vg.eligible < 2 * vg.active

/-- When `lv_sa_whladv` is called, there is a place, and the search ends. -/
def SearchEnds (vg : Volgrp) : Prop :=
  (∃ idx, (lvSaProcess vg).IsPlace idx) ∧ ∃ fuel n, lvSaWhladv (lvSaProcess vg) fuel (vg.saWheel + 1) = some n

/-- What two parties see of one volume, when none of them sees what the other one sees. -/
def Apart : Option Pvol → Option Pvol → Prop
  | none, none => True
  | some p, some q => p.novgda = q.novgda ∧ (p.missing = true ∨ q.missing = true)
  | _, _ => False

/-- One group, and two disjoint sets of present volumes. -/
def SplitGroup (vg wg : Volgrp) : Prop := List.Forall₂ Apart vg.pvols wg.pvols

theorem hasQuorum_iff : HasQuorum vg ↔ vg.lostQuorum = false ∧ (vg.eligible + 1) / 2 ≤ vg.active := by
  unfold HasQuorum lvSaQrmcheck
  split
  case isTrue hfew => simp [hfew]
  case isFalse hmany => simp [Nat.not_lt.mp hmany]

theorem SplitGroup.counts (h : SplitGroup vg wg) :
    vg.eligible = wg.eligible ∧ vg.active + wg.active ≤ vg.eligible := by
  unfold Volgrp.eligible Volgrp.active
  unfold SplitGroup at h
  generalize vg.pvols = ps at h ⊢
  generalize wg.pvols = qs at h ⊢
  induction h with
  | nil => simp
  | @cons p q ps qs hpq _ ih =>
    obtain ⟨heligible, hactive⟩ := ih
    cases p <;> cases q
    case none.none =>
      exact ⟨heligible, hactive⟩
    case some.some p q =>
      obtain ⟨hnovgda, hmissing⟩ := hpq
      rcases hmissing with hmissing | hmissing <;> grind
    all_goals exact hpq.elim

theorem majorityKept_iff (vg : Volgrp) : MajorityKept vg ↔ vg.lostQuorum = true ∨ 2 * vg.active ≠ vg.eligible := by
  unfold MajorityKept
  rw [hasQuorum_iff]
  cases vg.lostQuorum
  · simp
    omega
  · simp

theorem SplitGroup.not_both_iff (h : SplitGroup vg wg) :
    ¬ (HasQuorum vg ∧ HasQuorum wg) ↔
      (vg.lostQuorum = true ∨ 2 * vg.active ≠ vg.eligible) ∨
        (wg.lostQuorum = true ∨ 2 * wg.active ≠ wg.eligible) := by
  obtain ⟨heligible, hactive⟩ := h.counts
  rw [hasQuorum_iff, hasQuorum_iff]
  cases vg.lostQuorum <;> cases wg.lostQuorum <;> simp
  omega

theorem searchEnds_iff : SearchEnds vg ↔ ∃ idx, vg.IsPlace idx ∧ vg.saConfOp ≠ .pvmissing (idx / 2) := by
  unfold SearchEnds
  rw [whladv_ends_iff, and_self]
  simp only [isPlace_lvSaProcess]

/-- Two eligible volumes, of which one is there. -/
def halfGroup (first second : Bool) (op : ConfOp) : Volgrp where
  pvols := [some ⟨first, false, fun _ => 0, fun _ => 8⟩, some ⟨second, false, fun _ => 0, fun _ => 8⟩]
  extshift := 3
  maxpxs := 8
  exts _ lxnum _ := (0, lxnum)
  lostQuorum := false
  saState := .continuing
  sa := ⟨fun _ => false, fun _ => false⟩
  saHold := []
  saActive := []
  saWheel := 0
  saSeqnum := 0
  saConfOp := op
  saConfSeq := 0
  written _ := none

theorem not_isPlace_first {second : Bool} {op : ConfOp} {idx : ℕ} (h : idx / 2 ≠ 1) :
    ¬ (halfGroup true second op).IsPlace idx := by
  rintro ⟨pv, hpv, hmissing, -⟩
  unfold Volgrp.pvolAt halfGroup at hpv
  match hi : idx / 2 with
  | 0 =>
    rw [hi] at hpv
    cases hpv
    cases hmissing
  | 1 => exact h hi
  | n + 2 =>
    rw [hi] at hpv
    cases hpv

end Quorum

end Osf1.Vgsa
