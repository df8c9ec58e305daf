import Osf1.Vgsa.System

/-!
# Writes that are done, and volumes that go and come

After a write the place has the current sequence number and is the last one that the wheel comes
to.  A failed write takes the places of the volume away.
-/

set_option autoImplicit false

namespace Osf1.Vgsa

open Function List

section Completion

open Osf1.Computation

variable {vg wg : Volgrp} {pb : Pbuf} {idx pvnum c : ℕ} {s : ℤ}

theorem pvolAt_modify (vg wg : Volgrp) (idx : ℕ) {i : ℕ} {f : Pvol → Pvol}
    (h : wg.pvols = vg.pvols.modify i (Option.map f)) :
    wg.pvolAt idx = if i = idx / 2 then (vg.pvolAt idx).map f else vg.pvolAt idx := by
  unfold Volgrp.pvolAt
  rw [h, getElem?_modify]
  split
  case isTrue => cases vg.pvols[idx / 2]? <;> rfl
  case isFalse => simp

theorem saSeqnumAt_pvMissing (vg : Volgrp) (pvnum : ℕ) : (pvMissing vg pvnum).saSeqnumAt = vg.saSeqnumAt := by
  funext idx
  unfold Volgrp.saSeqnumAt
  rw [pvolAt_modify vg (pvMissing vg pvnum) idx rfl]
  split
  case isTrue => cases vg.pvolAt idx <;> rfl
  case isFalse => rfl

theorem bump_eq (hnonneg : 0 ≤ s) (hlt : s + 1 < 2 ^ 31) : (s + 1).bmod (2 ^ 32) = s + 1 := by
  rw [Int.bmod_eq_of_le] <;> omega

theorem Swept.mono (h : Swept vg c pb s) (hplace : ∀ idx, wg.IsPlace idx → vg.IsPlace idx)
    (hstamp : wg.saSeqnumAt = vg.saSeqnumAt) (hwritten : wg.written = vg.written)
    (hnames : wg.names pb = vg.names pb) (hle : vg.saSeqnum ≤ wg.saSeqnum) : Swept wg c pb s where
  nonneg := h.nonneg
  le := h.le.trans hle
  written idx hidx hs := by
    rw [hwritten, hnames]
    rw [hstamp] at hs
    exact h.written idx (hplace idx hidx) hs
  trailing := by
    rw [hstamp]
    exact h.trailing.anti hplace

theorem saSeqnumAt_iodone (hplace : vg.IsPlace vg.saWheel) :
    (lvSaIodone vg false).saSeqnumAt =
      update vg.saSeqnumAt vg.saWheel vg.saSeqnum := by
  funext idx
  have hat := pvolAt_modify vg (lvSaIodone vg false) idx rfl
  obtain ⟨pv, hpv, -, -⟩ := hplace
  unfold Volgrp.saSeqnumAt
  rw [hat]
  rcases eq_or_ne idx vg.saWheel with rfl | hne
  · rw [if_pos rfl, hpv, update_self]
    exact update_self ..
  · rw [update_of_ne hne]
    split
    case isTrue hvol =>
      have hhalf : Fin.ofNat 2 idx ≠ Fin.ofNat 2 vg.saWheel := by
        intro heq
        have hmod : idx % 2 = vg.saWheel % 2 := congrArg Fin.val heq
        have hdiv : vg.saWheel / 2 = idx / 2 := hvol
        omega
      cases vg.pvolAt idx with
      | none => rfl
      | some q => exact update_of_ne hhalf ..
    case isFalse => rfl

theorem isPlace_iodone : (lvSaIodone vg false).IsPlace = vg.IsPlace := by
  funext idx
  unfold Volgrp.IsPlace
  rw [pvolAt_modify vg (lvSaIodone vg false) idx rfl]
  split
  case isTrue => cases vg.pvolAt idx <;> simp
  case isFalse => rfl

theorem Inv.iodone (h : Inv vg) (hwriting : vg.saState = .writing) : Inv (lvSaIodone vg false) := by
  have hplace := h.atPlace hwriting
  have hstamp := saSeqnumAt_iodone hplace
  have hfront : vg.front = vg.saWheel := if_pos hwriting
  exact
    { nonneg := h.nonneg
      stamps idx := by
        rw [hstamp]
        rcases eq_or_ne idx vg.saWheel with rfl | hne
        · exact (update_self ..).le
        · rw [update_of_ne hne]
          exact h.stamps idx
      marked a ha := ⟨(h.marked a ha).head, (h.marked a ha).chain⟩
      swept a ha := by
        have hswept := h.swept a ha
        rw [hfront] at hswept
        refine ⟨hswept.nonneg, hswept.le, fun idx hidx hs => ?_, ?_⟩
        · rw [isPlace_iodone] at hidx
          rw [hstamp] at hs
          rcases eq_or_ne idx vg.saWheel with rfl | hne
          · exact ⟨vg.sa, update_self .., (h.marked a ha).head⟩
          · rw [update_of_ne hne] at hs
            obtain ⟨sa, hsa, hshows⟩ := hswept.written idx hidx hs
            exact ⟨sa, (update_of_ne hne ..).trans hsa, hshows⟩
        · rw [isPlace_iodone, hstamp]
          exact hswept.trailing.write hswept.le
      waiting := h.waiting
      conf := h.conf
      atRest hrest := nomatch hrest
      atPlace hstate := nomatch hstate }

theorem Inv.iodone_error (h : Inv vg) (hwriting : vg.saState = .writing)
    (hlt : vg.saSeqnum + 1 < 2 ^ 31) : Inv (lvSaIodone vg true) := by
  have hseqnum : (lvSaIodone vg true).saSeqnum = vg.saSeqnum + 1 := bump_eq h.nonneg hlt
  have hstamp : (lvSaIodone vg true).saSeqnumAt = vg.saSeqnumAt := saSeqnumAt_pvMissing vg (vg.saWheel / 2)
  have hfront : vg.front = vg.saWheel := if_pos hwriting
  have hplaces (idx : ℕ) : (lvSaIodone vg true).IsPlace idx ↔
      vg.IsPlace idx ∧ idx / 2 ≠ vg.saWheel / 2 := isPlace_pvMissing
  have hle : vg.saSeqnum ≤ (lvSaIodone vg true).saSeqnum := by omega
  exact
    { nonneg := h.nonneg.trans hle
      stamps idx := by
        rw [hstamp]
        exact (h.stamps idx).trans hle
      marked a ha := ⟨(h.marked a ha).head, (h.marked a ha).chain⟩
      swept a ha := by
        have hswept := h.swept a ha
        rw [hfront] at hswept
        have hmono := hswept.mono (fun idx hidx => ((hplaces idx).mp hidx).1) hstamp rfl rfl hle
        have hgone : ¬ (lvSaIodone vg true).IsPlace vg.saWheel := fun hidx =>
          ((hplaces _).mp hidx).2 rfl
        exact ⟨hmono.nonneg, hmono.le, hmono.written, hmono.trailing.gone hgone⟩
      waiting := h.waiting
      conf := h.conf
      atRest hrest := nomatch hrest
      atPlace hstate := nomatch hstate }

theorem pvolAt_attach {pv : Pvol} (hlt : pvnum < vg.pvols.length) :
    (attach vg pvnum pv).pvolAt idx =
      if pvnum = idx / 2 then some { pv with missing := false, saSeqnum := fun _ => -1 }
      else vg.pvolAt idx := by
  unfold Volgrp.pvolAt attach
  rw [getElem?_set]
  split
  case isTrue heq => rfl
  case isFalse => rfl

theorem Inv.attach {pv : Pvol} (h : Inv vg) (hlt : pvnum < vg.pvols.length)
    (hgone : (vg.pvols[pvnum]?.join).all Pvol.missing) (hok : Orderly vg (.attach pvnum pv)) :
    Inv (attach vg pvnum pv) := by
  -- Its places were none before.
  have hnot (idx : ℕ) (hvol : pvnum = idx / 2) : ¬ vg.IsPlace idx := by
    rintro ⟨q, hq, hmissing, -⟩
    rw [Volgrp.pvolAt, ← hvol] at hq
    rw [hq, Option.all_some, hmissing] at hgone
    cases hgone
  have hstamp (idx : ℕ) : (Vgsa.attach vg pvnum pv).saSeqnumAt idx =
      if pvnum = idx / 2 then -1 else vg.saSeqnumAt idx := by
    unfold Volgrp.saSeqnumAt
    rw [pvolAt_attach hlt]
    split <;> rfl
  have hplace (idx : ℕ) (hidx : (Vgsa.attach vg pvnum pv).IsPlace idx) :
      if pvnum = idx / 2 then pv.saPsn (Fin.ofNat 2 idx) ≠ 0 else vg.IsPlace idx := by
    obtain ⟨q, hq, hmissing, hpsn⟩ := hidx
    rw [pvolAt_attach hlt] at hq
    split at hq
    case isTrue hvol =>
      cases hq
      rwa [if_pos hvol]
    case isFalse hvol =>
      rw [if_neg hvol]
      exact ⟨q, hq, hmissing, hpsn⟩
  exact
    { nonneg := h.nonneg
      stamps idx := by
        rw [hstamp]
        split
        case isTrue =>
          have hnonneg : 0 ≤ (Vgsa.attach vg pvnum pv).saSeqnum := h.nonneg
          omega
        case isFalse => exact h.stamps idx
      marked a ha := ⟨(h.marked a ha).head, (h.marked a ha).chain⟩
      swept a ha := by
        have hswept := h.swept a ha
        refine ⟨hswept.nonneg, hswept.le, fun idx hidx hs => ?_, ?_⟩
        · have hidx' := hplace idx hidx
          rw [hstamp] at hs
          split at hs
          case isTrue => exact absurd hs (by have := hswept.nonneg; omega)
          case isFalse hvol =>
            rw [if_neg hvol] at hidx'
            exact hswept.written idx hidx' hs
        · refine hswept.trailing.grow (fun l hl => ?_) fun l hl hl' => ?_
          · rw [hstamp, if_neg fun hvol => hnot l hvol hl]
          · have hpsn := hplace l hl
            split at hpsn
            case isFalse => exact absurd hpsn hl'
            case isTrue hvol =>
              refine ⟨?_, fun m hm hs => hok a ha l m hvol.symm hpsn hm hs⟩
              rw [hstamp, if_pos hvol]
              have := hswept.nonneg
              omega
      waiting := h.waiting
      conf := h.conf
      atRest := h.atRest
      atPlace hwriting := by
        have hat := h.atPlace hwriting
        have hvol : pvnum ≠ vg.saWheel / 2 := fun hvol => hnot _ hvol hat
        obtain ⟨q, hq, hmissing, hpsn⟩ := hat
        refine ⟨q, ?_, hmissing, hpsn⟩
        rw [pvolAt_attach hlt]
        exact (if_neg hvol).trans hq }

end Completion

/-!
## The invariant over `lv_sa_continue`

The requests of the hold list become active or go behind active ones, they are marked and get the
new sequence number, and the wheel goes on to the next place.
-/

section Continue

open Osf1.Computation

variable {vg wg : Volgrp} {pb : Pbuf} {a : Active} {n : ℕ} {l : List Pbuf}

/-- What holds while the hold list is processed, with `l` what is left of it. -/
structure Moving (vg : Volgrp) (l : List Pbuf) : Prop where
  marked : ∀ a ∈ vg.saActive, Marked vg a
  waiting : (vg.saActive.map Active.head ++ l).Pairwise (Agrees vg)
  conf : ∀ pb ∈ vg.saActive.map Active.head ++ l, AgreesConf vg pb vg.saConfOp

/-- What is compared and released later. -/
def Active.key (a : Active) : Pbuf × ℤ := (a.head, a.seqnum)

theorem Moving.move (h : Moving vg (pb :: l)) : Moving (lvSaMove vg pb) l := by
  obtain ⟨l₁, a, r, has, hsame, heq⟩ | heq := lvSaMove_cases vg pb
  · have ha : a ∈ vg.saActive := by
      rw [has]
      exact mem_append_right _ (mem_cons_self ..)
    have hheads : (lvSaMove vg pb).saActive.map Active.head = vg.saActive.map Active.head := by
      rw [heq, has]
      simp
    have hagrees : Agrees vg a.head pb := by
      have hcross := (pairwise_append.mp h.waiting).2.2
      exact hcross a.head (mem_map_of_mem ha) pb (mem_cons_self ..)
    have hsub : (vg.saActive.map Active.head ++ l).Sublist
        (vg.saActive.map Active.head ++ pb :: l) :=
      (sublist_cons_self pb l).append_left _
    constructor
    · intro b hb
      have hmarked : Marked vg b := by
        rw [heq] at hb
        rcases mem_append.mp hb with hb | hb
        · exact h.marked b (has ▸ mem_append_left _ hb)
        rcases mem_cons.mp hb with rfl | hb
        · refine ⟨(h.marked a ha).head, fun q hq => ?_⟩
          rcases mem_cons.mp hq with rfl | hq
          · exact ⟨stale_eq_of_coalesces hsame, hagrees.1 hsame⟩
          · exact (h.marked a ha).chain q hq
        · exact h.marked b (has ▸ mem_append_right _ (mem_cons_of_mem _ hb))
      rw [heq]
      exact ⟨hmarked.head, hmarked.chain⟩
    · rw [hheads, heq]
      exact h.waiting.sublist hsub
    · rw [hheads, heq]
      exact fun q hq => h.conf q (hsub.subset hq)
  · have hheads : (lvSaMove vg pb).saActive.map Active.head ++ l =
        vg.saActive.map Active.head ++ pb :: l := by
      rw [heq]
      simp
    constructor
    · intro b hb
      rw [heq] at hb ⊢
      rcases mem_append.mp hb with hb | hb
      · have hcross := (pairwise_append.mp h.waiting).2.2
        have hagrees := hcross b.head (mem_map_of_mem hb) pb (mem_cons_self ..)
        exact ⟨(h.marked b hb).head.mark hagrees.2, (h.marked b hb).chain⟩
      · rw [mem_singleton.mp hb]
        exact ⟨shows_mark _ _ _, fun q hq => nomatch hq⟩
    · rw [hheads, heq]
      exact h.waiting
    · rw [hheads, heq]
      exact h.conf

theorem Moving.foldl (h : Moving vg l) : Moving (l.foldl lvSaMove vg) [] := by
  induction l generalizing vg with
  | nil => exact h
  | cons pb l ih => exact ih h.move

theorem keys_lvSaMove (vg : Volgrp) (pb : Pbuf) :
    vg.saActive.map Active.key <+: (lvSaMove vg pb).saActive.map Active.key := by
  obtain ⟨l₁, a, r, has, -, heq⟩ | heq := lvSaMove_cases vg pb
  · rw [heq, has]
    simp [Active.key]
  · rw [heq, map_append]
    exact prefix_append _ _

theorem keys_foldl_lvSaMove (vg : Volgrp) (l : List Pbuf) :
    vg.saActive.map Active.key <+: (l.foldl lvSaMove vg).saActive.map Active.key := by
  induction l generalizing vg with
  | nil => exact prefix_refl _
  | cons pb l ih => exact (keys_lvSaMove vg pb).trans (ih _)

theorem Moving.confApply (h : Moving vg []) : ∀ a ∈ vg.saActive, Marked (lvSaConfApply vg) a := by
  intro a ha
  have hmarked := h.marked a ha
  have hconf := h.conf a.head (mem_append_left _ (mem_map_of_mem ha))
  unfold lvSaConfApply
  split
  case h_3 l hop =>
    rw [hop] at hconf
    refine ⟨hmarked.head.mark fun hne => hconf ?_, hmarked.chain⟩
    exact Bool.eq_true_of_not_eq_false hne
  case h_4 l hop =>
    rw [hop] at hconf
    refine ⟨hmarked.head.mark fun hne => hconf ?_, hmarked.chain⟩
    exact Bool.eq_false_of_not_eq_true hne
  all_goals exact ⟨hmarked.head, hmarked.chain⟩

/-- The state before the sequence number is given out. -/
def applied (vg : Volgrp) : Volgrp := lvSaConfApply (lvSaHold (lvSaQrmcheck vg))

theorem applied_eq (vg : Volgrp) :
    applied vg =
      { vg with
        pvols := (applied vg).pvols, lostQuorum := (applied vg).lostQuorum, sa := (applied vg).sa,
        saHold := [], saActive := (applied vg).saActive } := by
  unfold applied
  rw [lvSaConfApply_eq, lvSaHold_eq, lvSaQrmcheck_eq]

theorem saSeqnumAt_applied (vg : Volgrp) : (applied vg).saSeqnumAt = vg.saSeqnumAt := by
  have hhold : (lvSaHold (lvSaQrmcheck vg)).pvols = vg.pvols := by
    rw [lvSaHold_eq, lvSaQrmcheck_eq]
  unfold applied lvSaConfApply
  split
  case h_1 pvnum hop => exact (saSeqnumAt_pvMissing _ pvnum).trans (saSeqnumAt_congr hhold)
  all_goals exact saSeqnumAt_congr hhold

theorem isPlace_applied {idx : ℕ} (h : (applied vg).IsPlace idx) : vg.IsPlace idx := by
  have hhold : (lvSaHold (lvSaQrmcheck vg)).pvols = vg.pvols := by
    rw [lvSaHold_eq, lvSaQrmcheck_eq]
  rw [← isPlace_congr hhold]
  exact (isPlace_lvSaConfApply.mp h).1

theorem Inv.moving (h : Inv vg) : Moving (lvSaHold (lvSaQrmcheck vg)) [] := by
  have hstart : Moving { lvSaQrmcheck vg with saHold := [] } vg.saHold := by
    rw [lvSaQrmcheck_eq]
    exact ⟨fun a ha => ⟨(h.marked a ha).head, (h.marked a ha).chain⟩, h.waiting, h.conf⟩
  have hhold : (lvSaQrmcheck vg).saHold = vg.saHold := by
    rw [lvSaQrmcheck_eq]
  unfold lvSaHold
  rw [hhold]
  exact hstart.foldl

theorem keys_applied (vg : Volgrp) : vg.saActive.map Active.key <+: (applied vg).saActive.map Active.key := by
  have hkeys := keys_foldl_lvSaMove { lvSaQrmcheck vg with saHold := [] } (lvSaQrmcheck vg).saHold
  unfold applied
  rw [lvSaConfApply_eq]
  rw [lvSaQrmcheck_eq] at hkeys ⊢
  exact hkeys

theorem mem_stamp {old : ℕ} {as : List Active} {s : ℤ} {a : Active}
    (h : a ∈ as.take old ++ (as.drop old).map fun a : Active => { a with seqnum := s }) :
    ∃ b ∈ as, a.head = b.head ∧ a.chain = b.chain ∧
      (b ∈ as.take old ∧ a.seqnum = b.seqnum ∨ old < as.length ∧ a.seqnum = s) := by
  rcases mem_append.mp h with ha | ha
  · exact ⟨a, mem_of_mem_take ha, rfl, rfl, .inl ⟨ha, rfl⟩⟩
  · obtain ⟨b, hb, rfl⟩ := mem_map.mp ha
    refine ⟨b, mem_of_mem_drop hb, rfl, rfl, .inr ⟨?_, rfl⟩⟩
    by_contra hle
    rw [drop_eq_nil_of_le (Nat.not_lt.mp hle)] at hb
    cases hb

theorem mem_old {b : Active} (hb : b ∈ (applied vg).saActive.take vg.saActive.length) :
    ∃ a ∈ vg.saActive, a.key = b.key := by
  have hpre := prefix_iff_eq_take.mp (keys_applied vg)
  rw [length_map, ← map_take] at hpre
  have hkey : b.key ∈ vg.saActive.map Active.key := by
    rw [hpre]
    exact mem_map_of_mem hb
  obtain ⟨a, ha, heq⟩ := mem_map.mp hkey
  exact ⟨a, ha, heq⟩

theorem nextSeqnum_le (h : Inv vg) (hlt : vg.saSeqnum + 1 < 2 ^ 31) (old : ℕ) :
    vg.saSeqnum ≤ (applied vg).nextSeqnum old ∧
      (old < (applied vg).saActive.length → vg.saSeqnum < (applied vg).nextSeqnum old) := by
  have hseqnum : (applied vg).saSeqnum = vg.saSeqnum := by rw [applied_eq]
  unfold Volgrp.nextSeqnum
  rw [hseqnum, bump_eq h.nonneg hlt]
  unfold Volgrp.renewed
  split
  case isTrue => omega
  case isFalse hnot =>
    refine ⟨le_refl _, fun hnew => absurd ?_ hnot⟩
    rw [decide_eq_true hnew, Bool.true_or]

theorem lvSaProcess_eq (vg : Volgrp) :
    lvSaProcess vg =
      { vg with
        pvols := (applied vg).pvols, lostQuorum := (applied vg).lostQuorum, sa := (applied vg).sa,
        saHold := [], saActive := (lvSaProcess vg).saActive,
        saSeqnum := (applied vg).nextSeqnum vg.saActive.length,
        saConfOp := (lvSaProcess vg).saConfOp, saConfSeq := (lvSaProcess vg).saConfSeq } := by
  have heq : lvSaProcess vg = lvSaStamp vg.saActive.length (applied vg) := rfl
  rw [heq, lvSaStamp_eq, applied_eq]

theorem saActive_lvSaProcess (vg : Volgrp) :
    (lvSaProcess vg).saActive =
      (applied vg).saActive.take vg.saActive.length ++
        ((applied vg).saActive.drop vg.saActive.length).map fun a =>
          { a with seqnum := (applied vg).nextSeqnum vg.saActive.length } := by
  have heq : lvSaProcess vg = lvSaStamp vg.saActive.length (applied vg) := rfl
  rw [heq, lvSaStamp_eq]

theorem heads_lvSaProcess (vg : Volgrp) :
    (lvSaProcess vg).saActive.map Active.head =
      (lvSaHold (lvSaQrmcheck vg)).saActive.map Active.head := by
  have hactive : (applied vg).saActive = (lvSaHold (lvSaQrmcheck vg)).saActive := by
    unfold applied
    rw [lvSaConfApply_eq]
  rw [saActive_lvSaProcess, hactive, map_append, map_map]
  conv_rhs => rw [← take_append_drop vg.saActive.length (lvSaHold (lvSaQrmcheck vg)).saActive, map_append]
  rfl

theorem Inv.marked_process (h : Inv vg) : ∀ a ∈ (lvSaProcess vg).saActive, Marked (lvSaProcess vg) a := by
  intro a ha
  rw [saActive_lvSaProcess] at ha
  obtain ⟨b, hb, hhead, hchain, -⟩ := mem_stamp ha
  have hactive : (applied vg).saActive = (lvSaHold (lvSaQrmcheck vg)).saActive := by
    unfold applied
    rw [lvSaConfApply_eq]
  have hmarked : Marked (applied vg) b := h.moving.confApply b (hactive ▸ hb)
  rw [applied_eq] at hmarked
  rw [lvSaProcess_eq]
  refine ⟨?_, ?_⟩
  · rw [hhead]
    exact hmarked.head
  · rw [hhead, hchain]
    exact hmarked.chain

theorem Inv.swept_process (h : Inv vg) (hlt : vg.saSeqnum + 1 < 2 ^ 31) :
    ∀ a ∈ (lvSaProcess vg).saActive, Swept (lvSaProcess vg) (lvSaProcess vg).front a.head a.seqnum := by
  intro a ha
  obtain ⟨hle, hnew⟩ := nextSeqnum_le h hlt vg.saActive.length
  have hseqnum : (lvSaProcess vg).saSeqnum = (applied vg).nextSeqnum vg.saActive.length := by
    rw [lvSaProcess_eq]
  have hpvols : (lvSaProcess vg).pvols = (applied vg).pvols := by
    rw [lvSaProcess_eq]
  have hstamp : (lvSaProcess vg).saSeqnumAt = vg.saSeqnumAt :=
    (saSeqnumAt_congr hpvols).trans (saSeqnumAt_applied vg)
  have hfront : (lvSaProcess vg).front = vg.front := by
    rw [lvSaProcess_eq]
    rfl
  rw [hfront]
  rw [saActive_lvSaProcess] at ha
  obtain ⟨b, hb, hhead, -, ⟨hold, hs⟩ | ⟨hlen, hs⟩⟩ := mem_stamp ha
  · obtain ⟨c, hc, hkey⟩ := mem_old hold
    obtain ⟨hkey₁, hkey₂⟩ := Prod.ext_iff.mp hkey
    have hswept := h.swept c hc
    rw [hhead, hs, ← show c.head = b.head from hkey₁, ← show c.seqnum = b.seqnum from hkey₂]
    refine hswept.mono (fun idx hidx => ?_) hstamp ?_ ?_ (hseqnum ▸ hle)
    · rw [isPlace_congr hpvols] at hidx
      exact isPlace_applied hidx
    · rw [lvSaProcess_eq]
    · rw [lvSaProcess_eq]
      rfl
  · have hbelow (idx : ℕ) : (lvSaProcess vg).saSeqnumAt idx < a.seqnum := by
      rw [hstamp, hs]
      exact (h.stamps idx).trans_lt (hnew hlen)
    refine ⟨?_, ?_, fun idx _ hidx => absurd hidx (Int.not_le.mpr (hbelow idx)), ?_⟩
    · rw [hs]
      exact h.nonneg.trans hle
    · rw [hs, hseqnum]
    · exact .of_lt fun idx _ => hbelow idx

theorem Inv.process (h : Inv vg) (hstate : vg.saState = .continuing)
    (hlt : vg.saSeqnum + 1 < 2 ^ 31) : Inv (lvSaProcess vg) := by
  obtain ⟨hle, -⟩ := nextSeqnum_le h hlt vg.saActive.length
  have hseqnum : (lvSaProcess vg).saSeqnum = (applied vg).nextSeqnum vg.saActive.length := by
    rw [lvSaProcess_eq]
  have hstamp : (lvSaProcess vg).saSeqnumAt = vg.saSeqnumAt := by
    have hpvols : (lvSaProcess vg).pvols = (applied vg).pvols := by
      rw [lvSaProcess_eq]
    exact (saSeqnumAt_congr hpvols).trans (saSeqnumAt_applied vg)
  have hstate' : (lvSaProcess vg).saState = .continuing := by
    rw [lvSaProcess_eq]
    exact hstate
  have hwaiting : (lvSaProcess vg).waiting =
      (lvSaHold (lvSaQrmcheck vg)).saActive.map Active.head ++ [] := by
    rw [Volgrp.waiting, heads_lvSaProcess, saHold_lvSaProcess]
  exact
    { nonneg := by
        rw [hseqnum]
        exact h.nonneg.trans hle
      stamps idx := by
        rw [hstamp, hseqnum]
        exact (h.stamps idx).trans hle
      marked := h.marked_process
      swept := h.swept_process hlt
      waiting := by
        have hhold : Agrees (lvSaHold (lvSaQrmcheck vg)) = Agrees vg := by
          rw [lvSaHold_eq, lvSaQrmcheck_eq]
          rfl
        have hprocess : Agrees (lvSaProcess vg) = Agrees vg := by
          rw [lvSaProcess_eq]
          rfl
        rw [hwaiting, hprocess, ← hhold]
        exact h.moving.waiting
      conf pb hpb := by
        rw [saConfOp_lvSaProcess]
        cases vg.saConfOp <;> exact trivial
      atRest hrest := by
        rw [hstate'] at hrest
        cases hrest
      atPlace hwriting := by
        rw [hstate'] at hwriting
        cases hwriting }

theorem Inv.lost (h : Inv vg) : Inv (lvSaLost vg).vg where
  nonneg := h.nonneg
  stamps := h.stamps
  marked _ ha := nomatch ha
  swept _ ha := nomatch ha
  waiting := (pairwise_append.mp h.waiting).2.1
  conf pb hpb := h.conf pb (mem_append_right _ hpb)
  atRest _ := rfl
  atPlace hwriting := nomatch hwriting

theorem Inv.turn (h : Inv vg) (hstate : vg.saState = .continuing)
    (hn : NextPlace vg.IsPlace (vg.saWheel + 1) n) : Inv (lvSaTurn vg n).vg := by
  have hfront : vg.front = vg.saWheel + 1 := if_neg (by rw [hstate]; decide)
  have hsub : (lvSaTurn vg n).vg.saActive.Sublist vg.saActive := dropWhile_sublist _
  have hwaiting : (lvSaTurn vg n).vg.waiting.Sublist vg.waiting := (hsub.map Active.head).append_right _
  -- When the wheel stops, the next place has the update of every active request.
  have hrest : (lvSaTurn vg n).vg.saState = .stopped → (lvSaTurn vg n).vg.saActive = [] := by
    intro hstopped
    have hle : ¬ vg.saSeqnumAt n < vg.saSeqnum := by
      intro hlt
      have hwriting : (lvSaTurn vg n).vg.saState = .writing := if_pos hlt
      rw [hwriting] at hstopped
      cases hstopped
    refine dropWhile_eq_nil_iff.mpr fun a ha => ?_
    have hswept := (h.swept a ha).le
    rw [decide_eq_true_eq]
    omega
  exact
    { nonneg := h.nonneg
      stamps := h.stamps
      marked a ha := ⟨(h.marked a (hsub.subset ha)).head, (h.marked a (hsub.subset ha)).chain⟩
      swept a ha := by
        have hswept := h.swept a (hsub.subset ha)
        rw [hfront] at hswept
        refine ⟨hswept.nonneg, hswept.le, hswept.written, ?_⟩
        have hfront' : (lvSaTurn vg n).vg.front = n := by
          by_cases hlt : vg.saSeqnumAt n < vg.saSeqnum
          · exact if_pos (if_pos hlt)
          · rw [hrest (if_neg hlt)] at ha
            cases ha
        rw [hfront']
        exact hswept.trailing.next hn
      waiting := h.waiting.sublist hwaiting
      conf pb hpb := by
        have hconf := h.conf pb (hwaiting.subset hpb)
        show AgreesConf vg pb (if _ then .nop else vg.saConfOp)
        split
        case isTrue => trivial
        case isFalse => exact hconf
      atRest := hrest
      atPlace _ := hn.isPlace }

end Continue

/-!
## What is on disk when a request is released

A request that is put behind another one can name bits that the other one does not, since the test compares
the extents of the physical blocks.
-/

section Wheel

open Osf1.Computation

variable {vg₀ vg : Volgrp} {e : Event} {t : Turn} {n : ℕ}

/-- What a step of `lv_sa_continue` can do. -/
inductive Entered (vg : Volgrp) : Turn → Prop where
  | lost : Entered vg (lvSaLost (lvSaProcess vg))
  | turn {n : ℕ} (hn : NextPlace (lvSaProcess vg).IsPlace ((lvSaProcess vg).saWheel + 1) n) :
      Entered vg (lvSaTurn (lvSaProcess vg) n)

theorem entered_of_lvSaContinue {fuel : ℕ} (h : lvSaContinue fuel vg = some t) : Entered vg t := by
  simp only [lvSaContinue] at h
  split at h
  case isTrue =>
    cases h
    exact .lost
  case isFalse =>
    obtain ⟨n, hn, rfl⟩ := Option.map_eq_some_iff.mp h
    exact .turn (nextPlace_of_whladv hn)

theorem step_cases (h : step vg e = some t) : (∃ pb, e = .start pb ∧ t = ⟨lvSaStart vg pb, [], false⟩) ∨
    (∃ op, e = .config op ∧ (t = ⟨vg, [], false⟩ ∨
      t = ⟨{ vg with saConfOp := op, saState := vg.saState.roll }, [], false⟩)) ∨
    (∃ fuel, e = .enter fuel ∧ vg.saState = .continuing ∧ Entered vg t) ∨
    (∃ error, e = .iodone error ∧ vg.saState = .writing ∧ t = ⟨lvSaIodone vg error, [], false⟩) ∨
    ∃ pvnum pv, e = .attach pvnum pv ∧ pvnum < vg.pvols.length ∧
      (vg.pvols[pvnum]?.join).all Pvol.missing ∧ t = ⟨attach vg pvnum pv, [], false⟩ := by
  cases e with
  | start pb => exact .inl ⟨pb, rfl, (Option.some_inj.mp h).symm⟩
  | config op =>
    refine .inr (.inl ⟨op, rfl, ?_⟩)
    simp only [step, lvSaConfig, Option.ite_none_right_eq_some] at h
    by_cases hlost : vg.lostQuorum = true
    · rw [if_pos hlost] at h
      exact .inl (Option.some_inj.mp h.2).symm
    · rw [if_neg hlost] at h
      exact .inr (Option.some_inj.mp h.2).symm
  | enter fuel =>
    simp only [step, Option.ite_none_right_eq_some] at h
    exact .inr (.inr (.inl ⟨fuel, rfl, h.1, entered_of_lvSaContinue h.2⟩))
  | iodone error =>
    simp only [step, Option.ite_none_right_eq_some] at h
    exact .inr (.inr (.inr (.inl ⟨error, rfl, h.1, (Option.some_inj.mp h.2).symm⟩)))
  | attach pvnum pv =>
    simp only [step, Option.ite_none_right_eq_some] at h
    exact .inr (.inr (.inr (.inr ⟨pvnum, pv, rfl, h.1.1, h.1.2, (Option.some_inj.mp h.2).symm⟩)))

theorem saState_lvSaProcess (vg : Volgrp) : (lvSaProcess vg).saState = vg.saState := by
  rw [lvSaProcess_eq]

theorem Inv.step (h : Inv vg) (hok : Orderly vg e) (hstep : Vgsa.step vg e = some t) : Inv t.vg := by
  obtain ⟨pb, rfl, rfl⟩ | ⟨op, rfl, rfl | rfl⟩ | ⟨fuel, rfl, hstate, hentered⟩ |
    ⟨error, rfl, hwriting, rfl⟩ | ⟨pvnum, pv, rfl, hlt, hgone, rfl⟩ := step_cases hstep
  · exact h.start hok
  · exact h
  · exact h.config hok
  · have hprocess := h.process hstate hok
    cases hentered with
    | lost => exact hprocess.lost
    | turn hn => exact hprocess.turn ((saState_lvSaProcess vg).trans hstate) hn
  · cases error with
    | false => exact h.iodone hwriting
    | true => exact h.iodone_error hwriting hok
  · exact h.attach hlt hgone hok

theorem inv_of_reachable (h0 : vg₀.Init) (h : ((wheel vg₀).restrict Orderly).Reachable vg) : Inv vg := by
  refine h.invariant ?_ ?_
  · rintro vg rfl
    exact .of_init h0
  · rintro vg e vg' _ hinv ⟨hok, hstep⟩
    obtain ⟨t, ht, rfl⟩ := Option.map_eq_some_iff.mp hstep
    exact hinv.step hok ht

theorem Inv.released (h : Inv vg) (hstate : vg.saState = .continuing)
    (hn : NextPlace vg.IsPlace (vg.saWheel + 1) n) {d : Done} (hd : d ∈ (lvSaTurn vg n).calls) :
    OnDisk (lvSaTurn vg n).vg d.pb := by
  obtain ⟨a, ha, hda⟩ := mem_flatMap.mp hd
  have hactive : a ∈ vg.saActive := (takeWhile_sublist _).subset ha
  have htaken := mem_takeWhile_imp ha
  have hle : a.seqnum ≤ vg.saSeqnumAt n := of_decide_eq_true htaken
  obtain ⟨pb, hpb, rfl⟩ := mem_map.mp hda
  have hfront : vg.front = vg.saWheel + 1 := if_neg (by rw [hstate]; decide)
  have hswept := h.swept a hactive
  rw [hfront] at hswept
  intro idx hidx
  obtain ⟨sa, hsa, hshows⟩ := hswept.written idx hidx (hswept.trailing.all hn hle hidx)
  refine ⟨sa, hsa, ?_⟩
  rcases mem_cons.mp hpb with rfl | hpb
  · exact hshows
  · obtain ⟨hstale, hnames⟩ := (h.marked a hactive).chain pb hpb
    rw [hstale]
    exact fun b hb => hshows b (hnames hb)

theorem vgsaFailed_lvSaLost {d : Done} (hd : d ∈ (lvSaLost vg).calls) : d.vgsaFailed = true := by
  rcases mem_append.mp hd with hd | hd
  all_goals
    obtain ⟨a, -, hda⟩ := mem_flatMap.mp hd
    obtain ⟨pb, -, rfl⟩ := mem_map.mp hda
    rfl

/-- In an orderly run a request that is put behind another one names no other bits, and when a
request is released without an error, its update is on each place. -/
theorem released_on_disk (h0 : vg₀.Init) (h : ((wheel vg₀).restrict Orderly).Reachable vg) :
    (∀ a ∈ vg.saActive, ∀ pb ∈ a.chain, vg.names pb ⊆ vg.names a.head) ∧
      ∀ e t, Orderly vg e → step vg e = some t →
        ∀ d ∈ t.calls, d.vgsaFailed = false → OnDisk t.vg d.pb := by
  have hinv := inv_of_reachable h0 h
  refine ⟨fun a ha pb hpb => ((hinv.marked a ha).chain pb hpb).2, ?_⟩
  intro e t hok hstep d hd hfailed
  obtain ⟨pb, rfl, rfl⟩ | ⟨op, rfl, rfl | rfl⟩ | ⟨fuel, rfl, hstate, hentered⟩ |
    ⟨error, rfl, hwriting, rfl⟩ | ⟨pvnum, pv, rfl, -, -, rfl⟩ := step_cases hstep
  case inr.inr.inl =>
    cases hentered with
    | lost => exact absurd hfailed (by rw [vgsaFailed_lvSaLost hd]; decide)
    | turn hn =>
      have hstate' := (saState_lvSaProcess vg).trans hstate
      exact (hinv.process hstate hok).released hstate' hn hd
  all_goals cases hd

/-- A group of one volume with one place. -/
def oneGroup : Volgrp where
  pvols := [some ⟨false, false, fun _ => -1, fun i => if i = 0 then 8 else 0⟩]
  extshift := 3
  maxpxs := 8
  exts _ lxnum _ := (0, lxnum)
  lostQuorum := false
  saState := .stopped
  sa := ⟨fun _ => false, fun _ => false⟩
  saHold := []
  saActive := []
  saWheel := 0
  saSeqnum := 0
  saConfOp := .nop
  saConfSeq := 0
  written _ := none

theorem oneGroup_init : oneGroup.Init where
  saState := rfl
  saHold := rfl
  saActive := rfl
  saSeqnum := rfl
  saConfOp := rfl
  stamps idx := by
    unfold Volgrp.saSeqnumAt Volgrp.pvolAt oneGroup
    match idx / 2 with
    | 0 => rfl
    | n + 1 => rfl

/-- The group when the status area for its first request is being written. -/
def oneWriting : Volgrp := (lvSaTurn (lvSaProcess (lvSaStart oneGroup (stalePbuf 0))) 0).vg

/-- The request is released when its extent is marked on the volume. -/
theorem one_released_on_disk : ∃ t, step (lvSaIodone oneWriting false) (.enter 2) = some t ∧
    t.calls = [⟨stalePbuf 0, false⟩] ∧ OnDisk t.vg (stalePbuf 0) := by
  have hzero : (0 : ℤ) + 1 < 2 ^ 31 := by decide
  have hone : (1 : ℤ) + 1 < 2 ^ 31 := by decide
  have hstart : ((wheel oneGroup).restrict Orderly).Reachable (lvSaStart oneGroup (stalePbuf 0)) :=
    .step (i := .start (stalePbuf 0)) (.init rfl) ⟨⟨fun q hq => (nomatch hq), trivial⟩, rfl⟩
  have hwriting : ((wheel oneGroup).restrict Orderly).Reachable oneWriting :=
    .step (i := .enter 2) hstart ⟨hzero, rfl⟩
  have hdone : ((wheel oneGroup).restrict Orderly).Reachable (lvSaIodone oneWriting false) :=
    .step (i := .iodone false) hwriting ⟨hone, rfl⟩
  have hreleased := (released_on_disk oneGroup_init hdone).2 (.enter 2) _ hone rfl
  exact ⟨_, rfl, rfl, hreleased ⟨stalePbuf 0, false⟩ (mem_singleton_self _) rfl⟩

/-- A second request for another extent comes while the place is written, and it is put behind
the first one, since the physical blocks are in extents of one number.  It is released when its
extent is not marked on the volume. -/
theorem one_released_not_on_disk :
    ¬ ∀ vg₀ vg : Volgrp, vg₀.Init → (wheel vg₀).Reachable vg → ∀ e t, step vg e = some t →
      ∀ d ∈ t.calls, d.vgsaFailed = false → OnDisk t.vg d.pb := by
  intro hclaim
  have hstart : (wheel oneGroup).Reachable (lvSaStart oneGroup (stalePbuf 0)) :=
    .step (i := .start (stalePbuf 0)) (.init rfl) rfl
  have hwriting : (wheel oneGroup).Reachable oneWriting := .step (i := .enter 2) hstart rfl
  have hsecond : (wheel oneGroup).Reachable (lvSaStart oneWriting (stalePbuf 8)) :=
    .step (i := .start (stalePbuf 8)) hwriting rfl
  have hdone : (wheel oneGroup).Reachable
      (lvSaIodone (lvSaStart oneWriting (stalePbuf 8)) false) :=
    .step (i := .iodone false) hsecond rfl
  have hreleased := hclaim _ _ oneGroup_init hdone (.enter 2) _ rfl ⟨stalePbuf 8, false⟩
    (mem_cons_of_mem _ (mem_singleton_self _)) rfl
  obtain ⟨sa, hsa, hshows⟩ := hreleased 0 ⟨_, rfl, rfl, by decide⟩
  cases hsa
  have hbit := hshows 1 (by decide)
  revert hbit
  decide

end Wheel

end Osf1.Vgsa
